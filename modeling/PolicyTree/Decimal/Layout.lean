import PolicyTree.Decimal.Shortest

namespace PolicyTree.Decimal

/-- How the digits of a double are laid out: where the point stands, and when there is an exponent.
-/
structure Layout where
  tie : Tie
  /-- The exponents of the leading digit that are written without an exponent part. -/
  positional : Int → Bool
  /-- What follows a number that is written without fraction and exponent. -/
  wholeTail : String
  infinity : String
  nan : String

/-- The position of the leading digit: the number is `d.ddd * 10 ^ leading`. -/
def leading (d : Decimal) : Int :=
  d.exponent + (toString d.digits).length - 1

namespace Layout

def plain (l : Layout) (d : Decimal) : String :=
  let digits := toString d.digits
  if 0 ≤ d.exponent then
    digits ++ "".pushn '0' d.exponent.toNat ++ l.wholeTail
  else
    let places := (-d.exponent).toNat
    let padded := "".pushn '0' (places + 1 - digits.length) ++ digits
    let cs := padded.toList
    String.ofList (cs.take (cs.length - places)) ++ "."
      ++ String.ofList (cs.drop (cs.length - places))

/-- The number as one digit, the rest as a fraction, and a signed power of ten. -/
def scientific (d : Decimal) : String :=
  let cs := (toString d.digits).toList
  let fraction := if cs.length ≤ 1 then "" else "." ++ String.ofList cs.tail
  let sign := if d.leading < 0 then "-" else "+"
  String.ofList (cs.take 1) ++ fraction ++ "e" ++ sign ++ toString d.leading.natAbs

def decimal (l : Layout) (d : Decimal) : String :=
  if l.positional d.leading then l.plain d else scientific d

def render (l : Layout) (x : Float) : String :=
  if x.isNaN then l.nan
  else
    let sign := if x.toBits >>> 63 = 1 then "-" else ""
    if x.isInf then sign ++ l.infinity
    else if x == 0 then sign ++ l.plain ⟨0, 0⟩
    else sign ++ l.decimal ((Binary.ofFloat x).shortest l.tie)

end Layout

end PolicyTree.Decimal
