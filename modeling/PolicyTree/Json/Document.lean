import PolicyTree.Json.Number
import PolicyTree.Json.Outline

namespace PolicyTree

/-- A JSON document. The keys of an object are distinct and in order. -/
inductive Json where
  | null
  | bool (b : Bool)
  | number (n : Json.Number)
  | string (s : String)
  | array (items : List Json)
  | object (members : List (String × Json))

namespace Json

/-- What a code unit is in a pair of surrogates, or the character it stands for alone. -/
def isHighSurrogate (n : Nat) : Bool := 0xD800 ≤ n && n < 0xDC00
def isLowSurrogate (n : Nat) : Bool := 0xDC00 ≤ n && n < 0xE000

/-- The characters of a string literal; a surrogate needs its partner. -/
def chars? : List Piece → Option (List Char)
  | [] => some []
  | .char c :: ps => (chars? ps).map (c :: ·)
  | .unit h :: .unit l :: ps =>
    if isHighSurrogate h then
      if isLowSurrogate l then
        (chars? ps).map (Char.ofNat (0x10000 + (h - 0xD800) * 0x400 + (l - 0xDC00)) :: ·)
      else none
    else if isLowSurrogate h then none
    else (chars? (.unit l :: ps)).map (Char.ofNat h :: ·)
  | .unit n :: ps =>
    if isHighSurrogate n || isLowSurrogate n then none
    else (chars? ps).map (Char.ofNat n :: ·)

def text? (s : List Piece) : Option String :=
  (chars? s).map String.ofList

/-- Adds a member; a key that is there already keeps its place and takes the new value. -/
def putMember (members : List (String × Json)) (key : String) (v : Json) :
    List (String × Json) :=
  match members with
  | [] => [(key, v)]
  | (k, old) :: rest => if k == key then (k, v) :: rest else (k, old) :: putMember rest key v

mutual

/-- The document of an outline whose containers nest at most `depth` deep. -/
def ofOutline? (depth : Nat) : Outline → Option Json
  | .null => some .null
  | .bool b => some (.bool b)
  | .number n => n.value?.map .number
  | .string s => (text? s).map .string
  | .array items =>
    match depth with
    | 0 => none
    | depth + 1 => (ofItems? depth items).map .array
  | .object members =>
    match depth with
    | 0 => none
    | depth + 1 => (ofMembers? depth members).map fun ms =>
        .object (ms.foldl (fun acc m => putMember acc m.1 m.2) [])
termination_by structural o => o

def ofItems? (depth : Nat) : List Outline → Option (List Json)
  | [] => some []
  | o :: os => do return (← ofOutline? depth o) :: (← ofItems? depth os)
termination_by structural os => os

def ofMembers? (depth : Nat) : List (List Piece × Outline) → Option (List (String × Json))
  | [] => some []
  | m :: ms => do return (← ofMember? depth m) :: (← ofMembers? depth ms)
termination_by structural ms => ms

def ofMember? (depth : Nat) : List Piece × Outline → Option (String × Json)
  | (key, o) => do return (← text? key, ← ofOutline? depth o)
termination_by structural m => m

end

def maxDepth : Nat := 127

def parse? (text : String) : Option Json :=
  (Outline.ofText? text).bind (ofOutline? maxDepth)

end Json

end PolicyTree
