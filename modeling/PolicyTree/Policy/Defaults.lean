import PolicyTree.Policy.Update

namespace PolicyTree

mutual

/-- Adds every name of the defaults that `p` lacks, and counts the names added. -/
def Policy.fillFrom (p : Policy) : Policy → Policy × Nat
  | ⟨ds⟩ => Entry.fillAll p ds
termination_by structural d => d

def Entry.fillAll (p : Policy) : List Entry → Policy × Nat
  | [] => (p, 0)
  | d :: ds =>
    let (p, n) := Entry.fill p d
    let (p, m) := Entry.fillAll p ds
    (p, n + m)
termination_by structural ds => ds

/-- A name that is present keeps its array; where both hold sub-policies, each of the policy's own
is filled from the last one of the defaults. -/
def Entry.fill (p : Policy) : Entry → Policy × Nat
  | ⟨name, values⟩ =>
    match p.entry? name with
    | none => (⟨p.entries ++ [⟨name, values⟩]⟩, 1)
    | some e =>
      let (filled, n) := Value.fillFromLast e.values values
      (p.put name filled, n)
termination_by structural d => d

/-- Fills the sub-policies in `targets` from the last value of an array of defaults. -/
def Value.fillFromLast (targets : List Value) : List Value → List Value × Nat
  | [] => (targets, 0)
  | [d] => Value.fillEach targets d
  | _ :: ds => Value.fillFromLast targets ds
termination_by structural ds => ds

def Value.fillEach (targets : List Value) : Value → List Value × Nat
  | .policy d =>
    let filled := targets.map fun
      | .policy sub => let (sub, n) := sub.fillFrom d; (Value.policy sub, n)
      | v => (v, 0)
    (filled.map Prod.fst, filled.foldr (fun f n => f.2 + n) 0)
  | _ => (targets, 0)
termination_by structural d => d

end

/-- Fills `p` with the defaults it lacks; the number counts the names added to policies that were
there before. -/
def Policy.mergeDefaults (p defaults : Policy) : Policy × Nat :=
  p.fillFrom defaults

end PolicyTree
