import PolicyTree.Policy.Lookup

namespace PolicyTree

/-- `entries` with the array under `leaf` replaced, or with a new entry at the end. -/
def Entry.put (leaf : String) (values : List Value) : List Entry → List Entry
  | [] => [⟨leaf, values⟩]
  | e :: es =>
    if e.name == leaf then ⟨e.name, values⟩ :: es else e :: Entry.put leaf values es

/-- Changes every sub-policy of an array, the first one by `change i` and each later one by the
next change, and gathers what the changes answer. -/
def Value.editEach {α : Type} (change : Nat → Policy → α × Policy) (i : Nat) :
    List Value → List α × List Value
  | [] => ([], [])
  | .policy sub :: vs =>
    let (answer, sub) := change i sub
    let (answers, vs) := Value.editEach change (i + 1) vs
    (answer :: answers, .policy sub :: vs)
  | v :: vs =>
    let (answers, vs) := Value.editEach change i vs
    (answers, v :: vs)

namespace Policy

variable {α : Type}

/-- Replaces the whole array under a single-segment name; a new name comes last. -/
def put (p : Policy) (leaf : String) (values : List Value) : Policy :=
  ⟨Entry.put leaf values p.entries⟩

def erase (p : Policy) (leaf : String) : Policy :=
  ⟨p.entries.eraseP fun e => e.name == leaf⟩

/-- The sub-policy that a change under `leaf` walks into; `full` names it in errors. -/
def child (p : Policy) (leaf full : String) : Except Error Policy :=
  match (p.entry? leaf).bind (·.values.getLast?) with
  | none => .error (.nameNotFound full)
  | some (.policy sub) => .ok sub
  | some v => .error (.wrongType full .policy v.kind)

/-- The sub-policy that a change under `leaf` walks into, or with `create` a new one if the name is
not there. -/
def enter (create : Bool) (p : Policy) (leaf full : String) : Except Error Policy :=
  if create && (p.entry? leaf).isNone then .ok .empty else p.child leaf full

def putChild (p : Policy) (leaf : String) (sub : Policy) : Policy :=
  let before := ((p.entry? leaf).map fun e => e.values.dropLast).getD []
  p.put leaf (before ++ [.policy sub])

/-- Changes the policy that holds the last segment of a name, by an operation that is given that
policy and the segment. With `create`, sub-policies on the way are made as needed. `walked` is
the name of `p` itself. -/
def editHolder (create : Bool) (edit : Policy → String → Except Error (α × Policy))
    (walked : String) (p : Policy) : List String → Except Error (α × Policy)
  | [] => .error (.nameNotFound walked)
  | [leaf] => edit p leaf
  | seg :: rest => do
    let full := Name.join walked seg
    let sub ← p.enter create seg full
    let (answer, sub) ← sub.editHolder create edit full rest
    return (answer, p.putChild seg sub)

/-- Changes the policy that holds the last segment of `path`. An operation that fails has no
resulting policy, so that the one it was given is still what it was. -/
def edit (create : Bool) (p : Policy) (path : String)
    (change : Policy → String → Except Error (α × Policy)) : Except Error (α × Policy) := do
  p.editHolder create change "" (← Name.segments path)

def set (p : Policy) (path : String) (v : Value) : Except Error Policy :=
  if v.isUndefined then
    .error (.invalidValue path "values must be defined; use remove() instead")
  else
    Prod.snd <$> p.edit true path fun holder leaf => .ok ((), holder.put leaf [v])

/-- Adds a value at the end of the array under `path`, which must be of its kind. -/
def add (p : Policy) (path : String) (v : Value) : Except Error Policy :=
  if v.isUndefined then .error (.invalidValue path "values must be defined")
  else
    Prod.snd <$> p.edit true path fun holder leaf =>
      match holder.entry? leaf with
      | none => .ok ((), holder.put leaf [v])
      | some e =>
        if v.kind == e.kind then .ok ((), holder.put leaf (e.values ++ [v]))
        else .error (.wrongType path e.kind v.kind)

/-- An array can be stored under `path` if it has values, all of one kind and defined. -/
def checkArray (path : String) (values : List Value) : Except Error Unit :=
  match values with
  | [] => .error (.invalidValue path "arrays may not be empty; use remove() instead")
  | first :: _ =>
    match values.find? fun v => v.kind != first.kind with
    | some odd => .error (.wrongType path first.kind odd.kind)
    | none =>
      if first.isUndefined then .error (.invalidValue path "values must be defined") else .ok ()

def setArray (p : Policy) (path : String) (values : List Value) : Except Error Policy := do
  checkArray path values
  Prod.snd <$> p.edit true path fun holder leaf => .ok ((), holder.put leaf values)

def remove? (p : Policy) (path : String) : Option (List Value × Policy) :=
  Except.toOption <| p.edit false path fun holder leaf =>
    match holder.entry? leaf with
    | none => .error (.nameNotFound path)
    | some e => .ok (e.values, holder.erase leaf)

/-- The value added last under `path`, and the policy without it; with its only value the name
goes too. -/
def pop? (p : Policy) (path : String) : Option (Value × Policy) :=
  Except.toOption <| p.edit false path fun holder leaf =>
    match (holder.entry? leaf).map Entry.values with
    | none => .error (.nameNotFound path)
    | some values =>
      match values.getLast? with
      | none => .error (.nameNotFound path)
      | some v =>
        if values.length = 1 then .ok (v, holder.erase leaf)
        else .ok (v, holder.put leaf values.dropLast)

/-- Changes the last sub-policy under `path`. -/
def editPolicy (p : Policy) (path : String) (change : Policy → α × Policy) :
    Except Error (α × Policy) :=
  p.edit false path fun holder leaf => do
    let (answer, sub) := change (← holder.child leaf path)
    return (answer, holder.putChild leaf sub)

/-- Changes every sub-policy in the array under `path`, each by a change of its own. -/
def editPoliciesAt (p : Policy) (path : String) (change : Nat → Policy → α × Policy) :
    Except Error (List α × Policy) :=
  p.edit false path fun holder leaf =>
    match holder.entry? leaf with
    | none => .error (.nameNotFound path)
    | some e =>
      if e.kind == .policy then
        let (answers, values) := Value.editEach change 0 e.values
        .ok (answers, holder.put leaf values)
      else .error (.wrongType path .policy e.kind)

def editPolicies (p : Policy) (path : String) (change : Policy → α × Policy) :
    Except Error (List α × Policy) :=
  p.editPoliciesAt path fun _ => change

end Policy

end PolicyTree
