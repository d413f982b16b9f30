import PolicyTree.Decimal.Layout
import PolicyTree.Json.Document
import PolicyTree.Text.Hex

namespace PolicyTree.Json

/-- Doubles always have a fraction or an exponent, which starts at `10 ^ 16` and below `10 ^ -5`;
a tie goes to the even digit. -/
def doubleLayout : Decimal.Layout where
  tie := .even
  positional e := -5 ≤ e && e < 16
  wholeTail := ".0"
  infinity := "null"
  nan := "null"

def Number.render : Number → String
  | .int i => toString i
  | .double d => if d.isNaN || d.isInf then "null" else doubleLayout.render d

/-- One character of a string; controls are escaped and all else stands for itself. -/
def renderChar (c : Char) : String :=
  if c = '"' then "\\\""
  else if c = '\\' then "\\\\"
  else if c = '\x08' then "\\b"
  else if c = '\t' then "\\t"
  else if c = '\n' then "\\n"
  else if c = '\x0c' then "\\f"
  else if c = '\r' then "\\r"
  else if c < ' ' then "\\u00" ++ (if c.toNat < 16 then "0" else "") ++ Text.hex c.toNat
  else String.singleton c

def renderString (s : String) : String :=
  "\"" ++ String.join (s.toList.map renderChar) ++ "\""

mutual

/-- A document in as few characters as its structure needs. -/
def render : Json → String
  | .null => "null"
  | .bool b => if b then "true" else "false"
  | .number n => n.render
  | .string s => renderString s
  | .array items => "[" ++ ",".intercalate (renderItems items) ++ "]"
  | .object members => "\x7b" ++ ",".intercalate (renderMembers members) ++ "\x7d"
termination_by structural v => v

def renderItems : List Json → List String
  | [] => []
  | v :: vs => v.render :: renderItems vs
termination_by structural vs => vs

def renderMembers : List (String × Json) → List String
  | [] => []
  | m :: ms => renderMember m :: renderMembers ms
termination_by structural ms => ms

def renderMember : String × Json → String
  | (key, v) => renderString key ++ ":" ++ v.render
termination_by structural m => m

end

end PolicyTree.Json
