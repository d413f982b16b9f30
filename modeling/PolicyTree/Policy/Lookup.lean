import PolicyTree.Name
import PolicyTree.Tree

namespace PolicyTree

namespace Policy

def entry? (p : Policy) (leaf : String) : Option Entry :=
  p.entries.find? fun e => e.name == leaf

/-- The last sub-policy under a single-segment name. -/
def child? (p : Policy) (leaf : String) : Option Policy :=
  ((p.entry? leaf).bind (·.values.getLast?)).bind Value.policy?

/-- The array at the end of a walk. Where a segment holds an array of sub-policies, the last one is
walked into; file references end the walk. -/
def valuesAt? (p : Policy) : List String → Option (List Value)
  | [] => none
  | [leaf] => (p.entry? leaf).map Entry.values
  | seg :: rest => (p.child? seg).bind fun sub => sub.valuesAt? rest

/-- The array under `path`; none if there is no such name or it is not well-formed. -/
def lookup? (p : Policy) (path : String) : Option (List Value) :=
  match Name.segments path with
  | .ok segs => p.valuesAt? segs
  | .error _ => none

def contains (p : Policy) (path : String) : Bool :=
  (p.lookup? path).isSome

def valueCount (p : Policy) (path : String) : Nat :=
  ((p.lookup? path).map List.length).getD 0

def isArray (p : Policy) (path : String) : Bool :=
  1 < p.valueCount path

def getArray (p : Policy) (path : String) : Except Error (List Value) :=
  if path.isEmpty then .error (.nameNotFound path)
  else do
    let segs ← Name.segments path
    match p.valuesAt? segs with
    | some values => .ok values
    | none => .error (.nameNotFound path)

/-- The value added last under `path`. -/
def get (p : Policy) (path : String) : Except Error Value := do
  match (← p.getArray path).getLast? with
  | some v => .ok v
  | none => .error (.nameNotFound path)

def kindOf (p : Policy) (path : String) : Except Error Kind := do
  return (← p.get path).kind

end Policy

structure Accessor (α : Type) where
  kind : Kind
  read? : Value → Option α
  isSome_read? : ∀ v, (read? v).isSome = (v.kind == kind)

namespace Accessor

def bool : Accessor Bool := ⟨.bool, Value.bool?, fun v => by cases v <;> rfl⟩
def int : Accessor Int64 := ⟨.int, Value.int?, fun v => by cases v <;> rfl⟩
def double : Accessor Float := ⟨.double, Value.double?, fun v => by cases v <;> rfl⟩
def string : Accessor String := ⟨.string, Value.string?, fun v => by cases v <;> rfl⟩
def policy : Accessor Policy := ⟨.policy, Value.policy?, fun v => by cases v <;> rfl⟩
def file : Accessor String := ⟨.file, Value.file?, fun v => by cases v <;> rfl⟩

variable {α : Type}

/-- The content of a value of the accessor's kind; `path` names it in the error. -/
def read (a : Accessor α) (path : String) (v : Value) : Except Error α :=
  match a.read? v with
  | some x => .ok x
  | none => .error (.wrongType path a.kind v.kind)

end Accessor

namespace Policy

variable {α : Type}

def getAs (a : Accessor α) (p : Policy) (path : String) : Except Error α := do
  a.read path (← p.get path)

def getArrayAs (a : Accessor α) (p : Policy) (path : String) : Except Error (List α) := do
  (← p.getArray path).mapM (a.read path)

end Policy

end PolicyTree
