import PolicyTree.Json.Token

namespace PolicyTree.Json

/-- The nesting of a JSON text, with strings and numbers still as they are written. -/
inductive Outline where
  | null
  | bool (b : Bool)
  | number (n : NumberText)
  | string (s : List Piece)
  | array (items : List Outline)
  | object (members : List (List Piece × Outline))

/-- A container that is still open, its latest content first. -/
inductive Frame where
  | array (items : List Outline)
  | object (members : List (List Piece × Outline)) (key : List Piece)

/-- What may come next. The frames are the containers around it, innermost first. -/
inductive Expecting where
  | value (around : List Frame)
  /-- The first item of an array, or its end. -/
  | item (around : List Frame)
  /-- A key; before the first one, the end of the object as well. -/
  | key (members : List (List Piece × Outline)) (around : List Frame)
  | colon (members : List (List Piece × Outline)) (key : List Piece) (around : List Frame)
  | nextItem (items : List Outline) (around : List Frame)
  | nextMember (members : List (List Piece × Outline)) (around : List Frame)
  | nothing (whole : Outline)

namespace Expecting

def finish (v : Outline) : List Frame → Expecting
  | [] => nothing v
  | .array items :: around => nextItem (v :: items) around
  | .object members name :: around => nextMember ((name, v) :: members) around

def startValue (around : List Frame) : Token → Option Expecting
  | .null => some (finish .null around)
  | .bool b => some (finish (.bool b) around)
  | .number n => some (finish (.number n) around)
  | .string s => some (finish (.string s) around)
  | .openBracket => some (item around)
  | .openBrace => some (key [] around)
  | _ => none

def step : Expecting → Token → Option Expecting
  | value around, t => startValue around t
  | item around, .closeBracket => some (finish (.array []) around)
  | item around, t => startValue (.array [] :: around) t
  | key members around, .string s => some (colon members s around)
  | key [] around, .closeBrace => some (finish (.object []) around)
  | colon members s around, .colon => some (value (.object members s :: around))
  | nextItem items around, .comma => some (value (.array items :: around))
  | nextItem items around, .closeBracket => some (finish (.array items.reverse) around)
  | nextMember (m :: ms) around, .comma => some (key (m :: ms) around)
  | nextMember members around, .closeBrace => some (finish (.object members.reverse) around)
  | _, _ => none

end Expecting

/-- The outline of a text that is one JSON value and nothing more. -/
def Outline.ofText? (text : String) : Option Outline := do
  match ← (← tokens? text).foldlM Expecting.step (.value []) with
  | .nothing whole => some whole
  | _ => none

end PolicyTree.Json
