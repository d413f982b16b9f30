import PolicyTree.Environment
import PolicyTree.Json.Printer
import PolicyTree.Json.Record
import PolicyTree.Text.Blank

namespace PolicyTree

structure Limits where
  /-- The number of indirections for one reference. -/
  maxIndirections : Nat
  /-- The number of policy files within one another. -/
  maxDepth : Nat
  deriving DecidableEq, Repr

namespace Limits

def standard : Limits := ⟨8, 32⟩

def bound : Nat := Nat.pow 2 64

/-- A limit in decimal digits, which a plus sign may precede. -/
def parseLimit? (cs : List Char) : Option Nat := do
  let digits := match cs with
    | '+' :: rest => rest
    | _ => cs
  match Json.spanDigits digits with
  | ([], _) => none
  | (ds, []) =>
    let n := Json.NumberText.digitsValue ds
    if n < bound then some n else none
  | _ => none

/-- A limit from a variable; `otherwise` if it is not set or is no number. -/
def fromVariable (env : Environment) (name : String) (otherwise : Nat) : Nat :=
  match env.get? name with
  | none => otherwise
  | some text => (parseLimit? (Text.trimChars text.toList)).getD otherwise

/-- The standard limits, as far as the environment does not set others. -/
def ofEnvironment (env : Environment) : Limits :=
  ⟨fromVariable env "POLICY_MAX_INDIRECTIONS" standard.maxIndirections,
    fromVariable env "POLICY_MAX_DEPTH" standard.maxDepth⟩

def indirectionsKey : String := "max_indirections"
def depthKey : String := "max_depth"

def render (l : Limits) : String :=
  let member (key : String) (n : Nat) := Json.renderString key ++ ":" ++ toString n
  "\x7b" ++ member indirectionsKey l.maxIndirections ++ "," ++ member depthKey l.maxDepth ++ "\x7d"

/-- A limit in a text; one that is missing is `otherwise`. -/
def ofOutline? (otherwise : Nat) : Option Json.Outline → Option Nat
  | none => some otherwise
  | some (.number n) => n.nat?.filter (· < bound)
  | some _ => none

/-- Reads what `render` writes; a missing limit is the standard one. -/
def parse? (text : String) : Option Limits := do
  match ← Json.fields? [indirectionsKey, depthKey] (← Json.Outline.ofText? text) with
  | [indirections, depth] =>
    return ⟨← ofOutline? standard.maxIndirections indirections,
      ← ofOutline? standard.maxDepth depth⟩
  | _ => none

end Limits

end PolicyTree
