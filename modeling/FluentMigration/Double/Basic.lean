/-!
Binary floating-point numbers of 64 bits as exact values. A finite one is a mantissa of at most 53
bits times a power of two; `Double.nearest` rounds a quotient to the nearest of them, a tie to the
even mantissa, and products and quotients are rounded exact results.
-/

namespace FluentMigration

inductive Double where
  /-- `mantissa * 2 ^ exponent`, or its opposite. -/
  | finite (negative : Bool) (mantissa : Nat) (exponent : Int)
  | infinite (negative : Bool)
  | nan
  deriving DecidableEq, Inhabited

namespace Double

def minExponent : Int := -1074

/-- The greatest exponent of a mantissa of 53 bits. -/
def maxExponent : Int := 971

/-- A quotient rounded to the nearest whole number, a half to the even one. -/
def roundQuotient (numerator denominator : Nat) : Nat :=
  let whole := numerator / denominator
  let twice := 2 * (numerator % denominator)
  if denominator < twice || twice == denominator && whole % 2 == 1 then whole + 1 else whole

def scaled (numerator denominator : Nat) (exponent : Int) : Nat × Nat :=
  (numerator <<< (-exponent).toNat, denominator <<< exponent.toNat)

def nearest (negative : Bool) (numerator denominator : Nat) : Double :=
  if numerator = 0 then finite negative 0 minExponent
  else
    let estimate := max minExponent ((numerator.log2 : Int) - (denominator.log2 : Int) - 53)
    let exponent :=
      let (n, d) := scaled numerator denominator estimate
      if n < d <<< 53 then estimate else estimate + 1
    let (n, d) := scaled numerator denominator exponent
    let mantissa := roundQuotient n d
    let (mantissa, exponent) :=
      if mantissa = 1 <<< 53 then (1 <<< 52, exponent + 1) else (mantissa, exponent)
    if maxExponent < exponent then infinite negative else finite negative mantissa exponent

/-- The double nearest to `digits * 10 ^ exponent`. Far outside of the range nothing is computed. -/
def ofDecimal (negative : Bool) (digits : Nat) (exponent : Int) : Double :=
  let magnitude := ((Nat.toDigits 10 digits).length : Int) + exponent
  if digits = 0 || magnitude < -400 then finite negative 0 minExponent
  else if 400 < magnitude then infinite negative
  else nearest negative (digits * Nat.pow 10 exponent.toNat) (Nat.pow 10 (-exponent).toNat)

def quotient (mantissa : Nat) (exponent : Int) : Nat × Nat :=
  (mantissa <<< exponent.toNat, 1 <<< (-exponent).toNat)

/-- A positive power of ten times a finite double, or the double divided by it. -/
def timesPower (power : Nat) (divide : Bool) : Double → Double
  | finite negative mantissa exponent =>
    let (n, d) := quotient mantissa exponent
    match ofDecimal false 1 power with
    | finite _ m e =>
      let (u, v) := quotient m e
      if divide then nearest negative (n * v) (d * u) else nearest negative (n * u) (d * v)
    | _ => if divide then finite negative 0 minExponent else infinite negative
  | other => other

/-- The part before the point, nothing for what is not finite. -/
def truncate? : Double → Option Int
  | finite negative mantissa exponent =>
    let (n, d) := quotient mantissa exponent
    some (if negative then -((n / d : Nat) : Int) else ((n / d : Nat) : Int))
  | _ => none

end Double
end FluentMigration
