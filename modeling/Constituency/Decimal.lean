/-!
# Decimal text of floating-point numbers

The decimal of a number is the one with the fewest digits that reads back as the same number and,
among those, the nearest one. All arithmetic is exact, on natural numbers.
-/

namespace Constituency

/-- The number `digits * 10 ^ exponent`. -/
structure Decimal where
  digits : Nat
  exponent : Int
deriving DecidableEq, Repr

namespace Decimal

/-- The number `mantissa * 2 ^ exponent`. At a `boundary` the next smaller number is only half as
far away as the next greater one. -/
structure Binary where
  mantissa : Nat
  exponent : Int
  boundary : Bool
deriving DecidableEq, Repr

/-- The magnitude of a finite number. -/
def Binary.ofFloat (x : Float) : Binary :=
  let bits := x.toBits.toNat
  let fraction : Nat := bits % Nat.pow 2 52
  let biased : Nat := bits / Nat.pow 2 52 % Nat.pow 2 11
  if biased = 0 then ⟨fraction, -1074, false⟩
  else ⟨fraction + Nat.pow 2 52, (biased : Int) - 1075, fraction = 0 && 1 < biased⟩

/-- The exponent of the leading digit. The factor keeps the smallest number above one. -/
def Binary.leadingExponent (b : Binary) : Int :=
  let scaled := (b.mantissa * Nat.pow 10 400) <<< b.exponent.toNat
  let digits := Nat.toDigits 10 (scaled >>> (-b.exponent).toNat)
  digits.length - 401

/-- The multiple of `10 ^ k` nearest to the number, if it reads back as the number; of two as near
as each other, the greater one. -/
def Binary.roundTo? (b : Binary) (k : Int) : Option Decimal :=
  -- in units of a quarter of the last place, on a scale where the grid is integral too
  let unit := Nat.pow 2 (b.exponent - 2).toNat * Nat.pow 10 (-k).toNat
  let grid := Nat.pow 10 k.toNat * Nat.pow 2 (2 - b.exponent).toNat
  let value := 4 * b.mantissa * unit
  let low := value - (if b.boundary then 1 else 2) * unit
  let high := value + 2 * unit
  let readsBack (d : Nat) : Bool :=
    if b.mantissa % 2 = 0 then low ≤ d * grid && d * grid ≤ high
    else low < d * grid && d * grid < high
  let d := value / grid
  let near := if (d + 1) * grid - value ≤ value - d * grid then d + 1 else d
  let far := if near = d then d + 1 else d
  if readsBack near then some ⟨near, k⟩
  else if readsBack far then some ⟨far, k⟩
  else none

/-- The shortest decimal. Seventeen digits always suffice. -/
def Binary.shortest (b : Binary) : Decimal :=
  let places := (List.range 17).map fun (n : Nat) => b.leadingExponent - n
  (places.findSome? b.roundTo?).getD ⟨0, 0⟩

/-- Positional notation, whatever the exponent, without a point after a whole number. -/
def positional (d : Decimal) : String :=
  let digits := Nat.toDigits 10 d.digits
  if 0 ≤ d.exponent then String.ofList (digits ++ List.replicate d.exponent.toNat '0')
  else
    let places := (-d.exponent).toNat
    let padded := List.replicate (places + 1 - digits.length) '0' ++ digits
    let whole := padded.take (padded.length - places)
    let rest := padded.drop (padded.length - places)
    let rest := (rest.reverse.dropWhile (· == '0')).reverse
    String.ofList (if rest.isEmpty then whole else whole ++ '.' :: rest)

/-- The text of a floating-point number. -/
def text (x : Float) : String :=
  if x.isNaN then "NaN"
  else
    let sign := if x.toBits.toNat < Nat.pow 2 63 then "" else "-"
    let b := Binary.ofFloat x
    if x.isInf then sign ++ "inf"
    else if b.mantissa = 0 then sign ++ "0"
    else sign ++ b.shortest.positional

example : text 1e21 = "1000000000000000000000" := by decide +kernel

example : text (0.1 + 0.2) = "0.30000000000000004" := by decide +kernel

-- halfway between two decimals of seventeen digits
example : text 2.98023223876953125e-8 = "0.000000029802322387695313" := by decide +kernel

example : text (-0.0) = "-0" := by decide +kernel

end Decimal

end Constituency
