import PolicyTree.Json.Token

namespace PolicyTree.Json

inductive Number where
  | int (i : Int64)
  | double (d : Float)

/-- Leading digits as a 64-bit number, and how many there were: `taken` continues `value` as long
as it fits. -/
def takeDigits (value taken : Nat) : List Nat → Nat × Nat
  | [] => (value, taken)
  | d :: ds =>
    if 10 * value + d < Nat.pow 2 64 then takeDigits (10 * value + d) (taken + 1) ds
    else (value, taken)

def powerOfTen (n : Nat) : Float :=
  Float.ofScientific 1 false n

/-- `x / 10 ^ n`, in steps of at most `10 ^ 308`. -/
def divPowerOfTen (x : Float) (n : Nat) : Float :=
  if n ≤ 308 then x / powerOfTen n
  else if x == 0 then x
  else divPowerOfTen (x / powerOfTen 308) (n - 308)
termination_by n

/-- `x * 10 ^ n`, unless that is infinite. -/
def mulPowerOfTen? (x : Float) (n : Nat) : Option Float :=
  if n ≤ 308 then
    let product := x * powerOfTen n
    if product.isInf then none else some product
  else if x == 0 then some x
  else none

def scale? (significand : Nat) (exponent : Int) : Option Float :=
  let x := significand.toUInt64.toFloat
  if 0 ≤ exponent then mulPowerOfTen? x exponent.toNat
  else some (divPowerOfTen x (-exponent).toNat)

namespace NumberText

def digitsValue (ds : List Nat) : Nat :=
  ds.foldl (fun n d => 10 * n + d) 0

def nat? (n : NumberText) : Option Nat :=
  if n.negative || n.fraction.isSome || n.exponent.isSome then none
  else some (digitsValue n.whole)

/-- The double of a literal. Digits after the first that no longer fits are dropped on either side
of the point; a number too large for a double has none. -/
def double? (n : NumberText) : Option Float :=
  let (whole, taken) := takeDigits 0 0 n.whole
  let dropped := n.whole.length - taken
  let (significand, places) := takeDigits whole 0 (n.fraction.getD [])
  let written : Int := match n.exponent with
    | none => 0
    | some (false, ds) => digitsValue ds
    | some (true, ds) => -(digitsValue ds : Int)
  let x? := scale? significand (written + dropped - places)
  if n.negative then x?.map (fun x => -x) else x?

/-- The value of a literal: zero with a minus sign is a double, as is an integer beyond 64 bits. -/
def value? (n : NumberText) : Option Number :=
  let magnitude := digitsValue n.whole
  let fits := n.fraction.isNone && n.exponent.isNone
  if fits && !n.negative && magnitude < Nat.pow 2 63 then
    some (.int (Int64.ofNat magnitude))
  else if fits && n.negative && 0 < magnitude && magnitude ≤ Nat.pow 2 63 then
    some (.int (Int64.ofInt (-magnitude)))
  else n.double?.map Number.double

end NumberText

end PolicyTree.Json
