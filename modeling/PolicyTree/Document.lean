import PolicyTree.Json.Printer
import PolicyTree.Policy.Update

namespace PolicyTree

def Json.referenceKey : String := "$ref"

inductive MemberFault where
  | illegalName
  | nestedArray
  | nullValue
  | rejected (e : Error)
  deriving DecidableEq, Repr

inductive DocumentError where
  | notJson
  | notAnObject (found : String)
  | member (path : String) (fault : MemberFault)
  deriving DecidableEq, Repr

def MemberFault.message : MemberFault → String
  | .illegalName => "names may not be empty or contain '.'"
  | .nestedArray => "nested arrays are not supported"
  | .nullValue => "null is not a value"
  | .rejected e => e.message

def DocumentError.message : DocumentError → String
  | .notJson => "invalid JSON"
  | .notAnObject found => s!"a policy document must be a JSON object, found {found}"
  | .member path fault => s!"{path}: {fault.message}"

def Json.describe : Json → String
  | .null => "null"
  | .bool _ => "a boolean"
  | .number _ => "a number"
  | .string _ => "a string"
  | .array _ => "an array"
  | .object _ => "an object"

/-- The reference that an object stands for, if its only member marks one. -/
def Json.reference? : List (String × Json) → Option String
  | [(key, .string s)] => if key == referenceKey then some s else none
  | _ => none

def Value.ofNumber : Json.Number → Value
  | .int i => .int i
  | .double d => .double d

/-- A key that can name an entry. -/
def Name.isLeaf (key : String) : Bool :=
  !key.isEmpty && !key.toList.contains Name.separator

mutual

/-- The array of values that a document at `path` stands for; only an array has not just one, and
an array within an array is refused. -/
def Value.arrayOf (path : String) (nested : Bool) : Json → Except DocumentError (List Value)
  | .null => .error (.member path .nullValue)
  | .bool b => .ok [.bool b]
  | .number n => .ok [Value.ofNumber n]
  | .string s => .ok [.string s]
  | .array items =>
    if nested then .error (.member path .nestedArray) else Value.ofItems path items
  | .object members =>
    match Json.reference? members with
    | some reference => .ok [.file reference]
    | none => do return [.policy ⟨← Entry.ofMembers path members⟩]
termination_by structural v => v

def Value.ofItems (path : String) : List Json → Except DocumentError (List Value)
  | [] => .ok []
  | item :: items => do return (← Value.arrayOf path true item) ++ (← Value.ofItems path items)
termination_by structural items => items

/-- The entry of a member below `above`; an empty array has none. -/
def Entry.ofMember (above : String) : String × Json → Except DocumentError (Option Entry)
  | (key, v) =>
    let path := Name.join above key
    if !Name.isLeaf key then .error (.member path .illegalName)
    else do
      let values ← Value.arrayOf path false v
      if values.isEmpty then return none
      match Policy.checkArray key values with
      | .ok () => return some ⟨key, values⟩
      | .error e => .error (.member path (.rejected e))
termination_by structural m => m

def Entry.ofMembers (above : String) : List (String × Json) → Except DocumentError (List Entry)
  | [] => .ok []
  | m :: ms => do
    let e ← Entry.ofMember above m
    return e.toList ++ (← Entry.ofMembers above ms)
termination_by structural ms => ms

end

/-- A policy from a document. An object is a policy, an array the values of one name, and an object
whose only member is `$ref`, with a string, a reference to another policy file. -/
def Policy.ofJson : Json → Except DocumentError Policy
  | .object members => do return ⟨← Entry.ofMembers "" members⟩
  | other => .error (.notAnObject other.describe)

def Policy.parse (text : String) : Except DocumentError Policy :=
  match Json.parse? text with
  | some doc => Policy.ofJson doc
  | none => .error .notJson

/-- Doubles that are not finite have no number in a document. -/
def Json.ofDouble (d : Float) : Json :=
  if d.isFinite then .number (.double d) else .null

mutual

def Value.toJson : Value → Json
  | .undefined => .null
  | .bool b => .bool b
  | .int i => .number (.int i)
  | .double d => Json.ofDouble d
  | .string s => .string s
  | .policy p => p.toJson
  | .file reference => .object [(Json.referenceKey, .string reference)]
termination_by structural v => v

def Policy.toJson : Policy → Json
  | ⟨es⟩ => .object (Entry.toMembers es)
termination_by structural p => p

def Entry.toMembers : List Entry → List (String × Json)
  | [] => []
  | e :: es => e.toMember :: Entry.toMembers es
termination_by structural es => es

/-- A single value is written as it is, and only several ones as an array. -/
def Entry.toMember : Entry → String × Json
  | ⟨name, values⟩ =>
    match Value.toItems values with
    | [item] => (name, item)
    | items => (name, .array items)
termination_by structural e => e

def Value.toItems : List Value → List Json
  | [] => []
  | v :: vs => v.toJson :: Value.toItems vs
termination_by structural vs => vs

end

def Policy.render (p : Policy) : String :=
  p.toJson.render

end PolicyTree
