import PolicyTree.Json.Printer
import PolicyTree.Json.Record
import PolicyTree.Schema.Validation

namespace PolicyTree.ValidateOptions

def flagUnknownKey : String := "flag_unknown_names"

def render (o : ValidateOptions) : String :=
  (Json.object [(flagUnknownKey, .bool o.flagUnknownNames)]).render

/-- Reads what `render` writes; a missing option is the standard one. -/
def parse? (text : String) : Option ValidateOptions := do
  match ← Json.fields? [flagUnknownKey] (← Json.Outline.ofText? text) with
  | [some (.bool b)] => some ⟨b⟩
  | [none] => some standard
  | _ => none

end PolicyTree.ValidateOptions
