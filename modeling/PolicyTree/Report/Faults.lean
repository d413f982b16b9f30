import PolicyTree.Text.Blank
import PolicyTree.Text.Fields
import PolicyTree.Text.Hex

namespace PolicyTree

/-- A set of faults of one parameter, as bits. -/
structure Faults where
  bits : UInt32
  deriving DecidableEq, Repr

namespace Faults

def empty : Faults := ⟨0⟩

def wrongType : Faults := ⟨1⟩

def missingRequired : Faults := ⟨2⟩

def arrayTooShort : Faults := ⟨8⟩

def tooManyValues : Faults := ⟨32⟩

def valueDisallowed : Faults := ⟨128⟩

def valueOutOfRange : Faults := ⟨256⟩

def unknownName : Faults := ⟨1024⟩

/-- The value is a file reference that has not been followed. -/
def notLoaded : Faults := ⟨4096⟩

/-- Each single fault with its name and what it says of a parameter. -/
def known : List (Faults × String × String) :=
  [(wrongType, "WRONG_TYPE", "value has the incorrect type"),
    (missingRequired, "MISSING_REQUIRED", "no value available for required parameter"),
    (arrayTooShort, "ARRAY_TOO_SHORT", "insufficient number of array values"),
    (tooManyValues, "TOO_MANY_VALUES", "too many values provided for parameter"),
    (valueDisallowed, "VALUE_DISALLOWED", "value is not among defined set"),
    (valueOutOfRange, "VALUE_OUT_OF_RANGE", "value is out of range"),
    (unknownName, "UNKNOWN_NAME", "parameter name is unknown"),
    (notLoaded, "NOT_LOADED", "file not loaded")]

instance : OrOp Faults := ⟨fun f g => ⟨f.bits ||| g.bits⟩⟩

def isEmpty (f : Faults) : Bool :=
  f.bits == 0

def contains (f g : Faults) : Bool :=
  f.bits &&& g.bits == g.bits

def meets (f g : Faults) : Bool :=
  f.bits &&& g.bits != 0

def union (fs : List Faults) : Faults :=
  fs.foldl (· ||| ·) empty

def all : Faults :=
  union (known.map Prod.fst)

def ofBits (bits : UInt32) : Faults :=
  ⟨bits &&& all.bits⟩

def message (f : Faults) : String :=
  "; ".intercalate ((known.filter fun k => f.contains k.1).map fun k => k.2.2)

/-- The names of the faults by increasing bit; bits without a name follow as one hexadecimal
number. -/
def render (f : Faults) : String :=
  let rest := f.bits &&& ~~~all.bits
  let names := (known.filter fun k => f.contains k.1).map fun k => k.2.1
  let extra := if rest == 0 then [] else ["0x" ++ Text.hex rest.toNat]
  " | ".intercalate (names ++ extra)

/-- A hexadecimal number of 32 bits, which a plus sign may precede. -/
def parseHex? (cs : List Char) : Option UInt32 := do
  let digits := match cs with
    | '+' :: rest => rest
    | _ => cs
  guard (!digits.isEmpty)
  let n ← digits.foldlM (fun n c => (Text.hexDigit? c).map (16 * n + ·)) 0
  guard (n < Nat.pow 2 32)
  return n.toUInt32

/-- One fault, by its name or as a hexadecimal number. -/
def parseOne? (text : String) : Option Faults :=
  match text.toList with
  | '0' :: 'x' :: digits => (parseHex? digits).map Faults.mk
  | _ => (known.find? fun k => k.2.1 == text).map Prod.fst

/-- Reads what `render` writes; blanks around the parts do not matter. -/
def parse? (text : String) : Option Faults :=
  if (Text.trim text).isEmpty then some empty
  else ((Text.fields '|' text).mapM (parseOne? ∘ Text.trim)).map union

end Faults

end PolicyTree
