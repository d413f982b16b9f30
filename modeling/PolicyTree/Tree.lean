import PolicyTree.Kind

namespace PolicyTree

mutual

/-- A single value. The undefined one stands for having nothing to offer and is never stored. -/
inductive Value where
  | undefined
  | bool (b : Bool)
  | int (i : Int64)
  | double (d : Float)
  | string (s : String)
  | policy (p : Policy)
  /-- A reference to another policy file, verbatim and not yet followed. -/
  | file (reference : String)

/-- Named arrays of values, in the order in which the names came. -/
structure Policy where
  entries : List Entry

structure Entry where
  name : String
  values : List Value

end

instance : Inhabited Value := ⟨.undefined⟩

namespace Policy

def empty : Policy := ⟨[]⟩

instance : Inhabited Policy := ⟨empty⟩

instance : EmptyCollection Policy := ⟨empty⟩

def isEmpty (p : Policy) : Bool :=
  p.entries.isEmpty

end Policy

namespace Value

def kind : Value → Kind
  | .undefined => .undefined
  | .bool _ => .bool
  | .int _ => .int
  | .double _ => .double
  | .string _ => .string
  | .policy _ => .policy
  | .file _ => .file

def isUndefined : Value → Bool
  | .undefined => true
  | _ => false

def bool? : Value → Option Bool
  | .bool b => some b
  | _ => none

def int? : Value → Option Int64
  | .int i => some i
  | _ => none

def double? : Value → Option Float
  | .double d => some d
  | _ => none

def string? : Value → Option String
  | .string s => some s
  | _ => none

def policy? : Value → Option Policy
  | .policy p => some p
  | _ => none

def file? : Value → Option String
  | .file reference => some reference
  | _ => none

theorem isUndefined_iff {v : Value} : v.isUndefined ↔ v.kind = .undefined := by
  cases v <;> simp [isUndefined, kind]

theorem policy?_eq_some_iff {v : Value} {p : Policy} : v.policy? = some p ↔ v = .policy p := by
  cases v <;> simp [policy?]

end Value

/-- The kind of an array is that of its first value. -/
def Entry.kind (e : Entry) : Kind :=
  (e.values.head?.map Value.kind).getD .undefined

mutual

/-- Values are equal when their kinds and contents are; doubles compare as numbers, so that no NaN
equals anything, and the order of names counts. -/
def Value.beq : Value → Value → Bool
  | .undefined, .undefined => true
  | .bool a, .bool b => a == b
  | .int a, .int b => a == b
  | .double a, .double b => a == b
  | .string a, .string b => a == b
  | .policy p, .policy q => p.beq q
  | .file a, .file b => a == b
  | _, _ => false
termination_by structural v => v

def Policy.beq : Policy → Policy → Bool
  | ⟨es⟩, ⟨fs⟩ => Entry.beqList es fs
termination_by structural p => p

def Entry.beq : Entry → Entry → Bool
  | ⟨m, vs⟩, ⟨n, ws⟩ => m == n && Value.beqList vs ws
termination_by structural e => e

def Entry.beqList : List Entry → List Entry → Bool
  | [], [] => true
  | e :: es, f :: fs => e.beq f && Entry.beqList es fs
  | _, _ => false
termination_by structural es => es

def Value.beqList : List Value → List Value → Bool
  | [], [] => true
  | v :: vs, w :: ws => v.beq w && Value.beqList vs ws
  | _, _ => false
termination_by structural vs => vs

end

instance : BEq Value := ⟨Value.beq⟩
instance : BEq Policy := ⟨Policy.beq⟩
instance : BEq Entry := ⟨Entry.beq⟩

end PolicyTree
