import PolicyTree.Policy.Defaults
import PolicyTree.Schema.Dictionary

namespace PolicyTree

/-- Stores the default of a definition under `path`: the values it declares itself, else the
defaults of its nested dictionary, if there are any. -/
def Definition.storeDefault (d : Definition) (nested : Except Error Policy) (p : Policy)
    (path : String) : Except Error Policy :=
  if d.defaults.isEmpty then do
    let q ← nested
    if q.isEmpty then return p else p.set path (.policy q)
  else p.setArray path d.defaults

/-- The defaults declared in the dictionary held by `p` and in those nested in it. -/
def Dictionary.defaultsIn (p : Policy) : Except Error Policy := do
  (← namesIn p).foldlM (fun out leaf =>
    match h : definitionIn p leaf with
    | .error e => .error e
    | .ok d =>
      let nested := match hs : d.dictionary with
        | none => .ok ∅
        | some sub =>
          have := sizeOf_lt_of_definitionIn h hs
          defaultsIn sub.policy
      d.storeDefault nested out leaf) ∅
termination_by sizeOf p

def Dictionary.defaults (d : Dictionary) : Except Error Policy :=
  defaultsIn d.policy

/-- Stores the default of a definition under `path`; without one nothing is stored. -/
def Definition.setDefault (d : Definition) (p : Policy) (path : String) : Except Error Policy :=
  d.storeDefault (match d.dictionary with | none => .ok ∅ | some sub => sub.defaults) p path

end PolicyTree
