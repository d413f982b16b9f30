import PolicyTree.Policy.Update
import PolicyTree.Report.Faults
import PolicyTree.Value.Order

namespace PolicyTree

/-- The name of the section that holds the definitions of a dictionary. -/
def definitionsKey : String := "definitions"

/-- The name under which a definition holds a nested dictionary. -/
def dictionaryKey : String := "dictionary"

/-- A policy that describes other policies: it has a section of definitions. -/
structure Dictionary where
  policy : Policy
  hasDefinitions : policy.contains definitionsKey = true

def Dictionary.ofPolicy (p : Policy) : Except Error Dictionary :=
  if h : p.contains definitionsKey = true then .ok ⟨p, h⟩
  else .error (.dictionary "no \"definitions\" section found")

structure Definition where
  /-- The name of the parameter, with those of the definitions around it. -/
  name : String
  /-- The declared type; undefined admits values of every kind. -/
  kind : Kind
  minOccurs : Nat
  /-- The greatest number of values, if there is one. -/
  maxOccurs : Option Nat
  min : Option Value
  max : Option Value
  allowed : List Value
  defaults : List Value
  description : Option String
  /-- The schema of the policies that the parameter holds. -/
  dictionary : Option Dictionary

namespace Definition

/-- The type that a definition declares; undefined if it does not. -/
def declaredKind (name : String) (fields : Policy) : Except Error Kind :=
  match fields.get "type" with
  | .error _ => .ok .undefined
  | .ok (.string text) =>
    match Kind.ofName? text with
    | none => .error (.dictionary s!"{name}: Unknown type: \"{text}\".")
    | some .file =>
      .error (.dictionary
        s!"{name}: Illegal type: \"{text}\"; use \"{Kind.policy.name}\" instead.")
    | some k => .ok k
  | .ok v =>
    .error (.dictionary s!"{name}: Expected string for \"type\"; found {v.kind.name} instead.")

/-- A bound on the number of values under `key`; none if it is absent or negative. -/
def occurs (name : String) (fields : Policy) (key : String) : Except Error (Option Nat) :=
  match fields.get key with
  | .error _ => .ok none
  | .ok (.int n) => .ok (if n < 0 then none else some n.toInt.toNat)
  | .ok v => .error (.dictionary s!"{name}: \"{key}\" must be an int, found {v.kind.name}")

/-- The bounds on the number of values. One value is required if nothing is said, and a lower
bound alone does not contradict the upper one. -/
def occurrences (name : String) (fields : Policy) : Except Error (Nat × Option Nat) := do
  let least ← if fields.contains "minOccurs" then
      (·.getD 0) <$> occurs name fields "minOccurs"
    else pure 1
  let most ← if fields.contains "maxOccurs" then occurs name fields "maxOccurs"
    else pure (some (Nat.max least 1))
  match most with
  | some m =>
    if m < least then
      .error (.dictionary s!"{name}: minOccurs ({least}) exceeds maxOccurs ({m})")
    else return (least, most)
  | none => return (least, most)

/-- A value that the schema gives must be of the declared kind; an int serves as a double. -/
def coerce (name : String) (kind : Kind) (what : String) (v : Value) : Except Error Value :=
  match kind, v with
  | .double, .int i => .ok (.double i.toFloat)
  | .undefined, v => .ok v
  | k, v =>
    if v.kind == k then .ok v
    else
      .error (.dictionary
        s!"Wrong type for {name} {what} value: expected {k.name}, found {v.kind.name}.")

structure Bounds where
  min : Option Value
  max : Option Value

/-- The bound under `key` of `source`, if there is one; it must be the only one given. -/
def takeBound (name : String) (kind : Kind) (key label : String) (known : Option Value)
    (source : Policy) : Except Error (Option Value) :=
  match source.get key with
  | .error _ => .ok known
  | .ok v =>
    if known.isSome || 1 < source.valueCount key then
      .error (.dictionary
        s!"{label} value for {name} already specified; additional value not allowed.")
    else some <$> coerce name kind key v

def Bounds.take (name : String) (kind : Kind) (b : Bounds) (source : Policy) :
    Except Error Bounds := do
  return ⟨← takeBound name kind "min" "Min" b.min source,
    ← takeBound name kind "max" "Max" b.max source⟩

/-- Values as a schema gives them under `key`; none if it does not. -/
def givenValues (name : String) (kind : Kind) (source : Policy) (key what : String) :
    Except Error (List Value) :=
  match source.getArray key with
  | .error _ => .ok []
  | .ok values => values.mapM (coerce name kind what)

/-- What the entries of `allowed` give: a policy gives bounds and values, another value itself. -/
def takeAllowed (name : String) (kind : Kind) (b : Bounds) :
    List Value → Except Error (Bounds × List Value)
  | [] => .ok (b, [])
  | .policy p :: rest => do
    let b ← b.take name kind p
    let values ← givenValues name kind p "value" "allowed"
    let (b, more) ← takeAllowed name kind b rest
    return (b, values ++ more)
  | v :: rest => do
    let v ← coerce name kind "allowed" v
    let (b, more) ← takeAllowed name kind b rest
    return (b, v :: more)

/-- The nested dictionary of a definition, which only one of type policy may have. -/
def nestedDictionary (name : String) (kind : Kind) (fields : Policy) :
    Except Error (Option Dictionary) :=
  match fields.get dictionaryKey with
  | .error _ => .ok none
  | .ok v =>
    if kind != .policy then
      .error (.dictionary
        s!"{name}: a \"dictionary\" is only allowed for type \"Policy\", not \"{kind.name}\"")
    else match v with
      | .policy p => some <$> Dictionary.ofPolicy p
      | .file reference =>
        .error (.dictionary s!"{name}: \"dictionary\" file {reference} has not been loaded")
      | v =>
        .error (.dictionary
          s!"Wrong type for {name} \"dictionary\": expected Policy, but found {v.kind.name}.")

/-- The definition of `name` from its policy. Names that mean nothing to a schema are ignored. -/
def ofPolicy (name : String) (fields : Policy) : Except Error Definition := do
  let kind ← declaredKind name fields
  let (minOccurs, maxOccurs) ← occurrences name fields
  let bounds ← Bounds.take name kind ⟨none, none⟩ fields
  let (bounds, allowed) ←
    takeAllowed name kind bounds ((fields.getArray "allowed").toOption.getD [])
  let defaults ← givenValues name kind fields "default" "default"
  let description := (fields.getAs .string "description").toOption
  let dictionary ← nestedDictionary name kind fields
  return { name, kind, minOccurs, maxOccurs, min := bounds.min, max := bounds.max, allowed,
           defaults, description, dictionary }

def isRequired (d : Definition) : Bool :=
  0 < d.minOccurs

/-- The faults of one value: it is not allowed, or not within the bounds. A value that has no
order with a bound is out of range. -/
def faultsOfValue (d : Definition) (v : Value) : Faults :=
  let allowed := d.allowed.isEmpty || d.allowed.any (v == ·)
  let below := d.min.any fun b => v.compare? b ∈ [none, some .lt]
  let above := d.max.any fun b => v.compare? b ∈ [none, some .gt]
  (if allowed then .empty else .valueDisallowed)
    ||| (if below || above then .valueOutOfRange else .empty)

end Definition

end PolicyTree
