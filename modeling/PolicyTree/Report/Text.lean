import PolicyTree.Json.Printer
import PolicyTree.Json.Record
import PolicyTree.Report.Basic

namespace PolicyTree.Report

def errorsKey : String := "errors"

def toJson (r : Report) : Json :=
  .object [(errorsKey, .object (r.faults.map fun e => (e.1, .string e.2.render)))]

def render (r : Report) : String :=
  r.toJson.render

/-- The report of an object with a text of faults for each name; the last one counts. -/
def ofOutline? : Json.Outline → Option Report
  | .object members => do
    let members ← Json.keyed? members
    members.foldlM (fun r m => do
      match m.2 with
      | .string s =>
        let f ← Faults.parse? (← Json.text? s)
        return ⟨alter m.1 (fun _ => f) r.faults⟩
      | _ => none) empty
  | _ => none

def parse? (text : String) : Option Report := do
  match ← Json.fields? [errorsKey] (← Json.Outline.ofText? text) with
  | [some errors] => ofOutline? errors
  | _ => none

end PolicyTree.Report
