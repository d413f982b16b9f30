namespace PolicyTree

/-- The decimal number `digits * 10 ^ exponent`. -/
structure Decimal where
  digits : Nat
  exponent : Int
  deriving DecidableEq, Repr

namespace Decimal

/-- A positive binary number `mantissa * 2 ^ exponent`. -/
structure Binary where
  mantissa : Nat
  exponent : Int
  /-- The gap below is half the gap above, as it is at a power of two. -/
  narrowBelow : Bool
  deriving DecidableEq, Repr

/-- Which of two equally near decimals is taken. -/
inductive Tie where
  | up
  | even
  deriving DecidableEq, Repr

/-- The magnitude of a finite double that is not zero. -/
def Binary.ofFloat (x : Float) : Binary :=
  let bits : Nat := x.toBits.toNat
  let fraction : Nat := bits % Nat.pow 2 52
  let biased : Nat := bits / Nat.pow 2 52 % Nat.pow 2 11
  if biased = 0 then ⟨fraction, -1074, false⟩
  else ⟨Nat.pow 2 52 + fraction, (biased : Int) - 1075, fraction = 0 && 1 < biased⟩

namespace Binary

/-- Everything is measured in quarters of the gap above `b`; this is `b` itself. -/
def quarters (b : Binary) : Nat :=
  4 * b.mantissa

def lower (b : Binary) : Nat :=
  b.quarters - if b.narrowBelow then 1 else 2

def upper (b : Binary) : Nat :=
  b.quarters + 2

/-- `n` quarters as a multiple of the unit in which points of the grid `10 ^ k` are whole. -/
def scaled (b : Binary) (k : Int) (n : Nat) : Nat :=
  n * Nat.pow 2 (b.exponent - 2).toNat * Nat.pow 10 (-k).toNat

/-- The spacing of the grid `10 ^ k` in that unit. -/
def spacing (b : Binary) (k : Int) : Nat :=
  Nat.pow 10 k.toNat * Nat.pow 2 (2 - b.exponent).toNat

/-- The decimal `c * 10 ^ k` reads back as `b`; the ends do when the mantissa is even. -/
def reads (b : Binary) (k : Int) (c : Nat) : Bool :=
  let point := c * b.spacing k
  let low := b.scaled k b.lower
  let high := b.scaled k b.upper
  if b.mantissa % 2 = 0 then low ≤ point && point ≤ high else low < point && point < high

/-- The point of the grid `10 ^ k` that is nearest to `b` among those that read back. -/
def nearest? (tie : Tie) (b : Binary) (k : Int) : Option Decimal :=
  let value := b.scaled k b.quarters
  let gap := b.spacing k
  let c := value / gap
  let pick : Option Nat :=
    match b.reads k c, b.reads k (c + 1) with
    | false, false => none
    | true, false => some c
    | false, true => some (c + 1)
    | true, true =>
      match compare (2 * (value % gap)) gap, tie with
      | .lt, _ => some c
      | .gt, _ => some (c + 1)
      | .eq, .up => some (c + 1)
      | .eq, .even => some (if c % 2 = 0 then c else c + 1)
  pick.map (⟨·, k⟩)

/-- The exponents of the decimal grids that can hold a double, coarsest first. -/
def gridExponents : List Int :=
  (List.range 634).map fun (i : Nat) => 309 - (i : Int)

/-- The decimal with the fewest digits that reads back as `b`: on the coarsest grid with a point in
the interval of reals that round to `b`, the nearest such point. -/
def shortest (tie : Tie) (b : Binary) : Decimal :=
  (gridExponents.findSome? (b.nearest? tie)).getD ⟨b.mantissa, 0⟩

end Binary

end Decimal

end PolicyTree
