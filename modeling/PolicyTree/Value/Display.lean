import PolicyTree.Tree
import PolicyTree.Decimal.Layout
import PolicyTree.Text.Quoted

namespace PolicyTree

/-- Displayed doubles never have an exponent, and whole ones no fraction; a tie goes up. -/
def Value.doubleLayout : Decimal.Layout where
  tie := .up
  positional _ := true
  wholeTail := ""
  infinity := "inf"
  nan := "NaN"

/-- A value on one line; of a policy only the number of its top-level names is shown. -/
def Value.display : Value → String
  | .undefined => "<undefined>"
  | .bool b => if b then "true" else "false"
  | .int i => toString i
  | .double d => doubleLayout.render d
  | .string s => Text.quoted s
  | .policy p => s!"<Policy: {p.entries.length} names>"
  | .file reference => s!"<PolicyFile: {reference}>"

end PolicyTree
