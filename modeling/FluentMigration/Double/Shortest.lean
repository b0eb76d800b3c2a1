import FluentMigration.Double.Basic
/-!
The text of a double: the fewest decimal digits that round to it, written with a point and without
an exponent.
-/

namespace FluentMigration
namespace Double

/-- Compares `a * 10 ^ e` with `b * 2 ^ q`. -/
def comparePowers (a : Nat) (e : Int) (b : Nat) (q : Int) : Ordering :=
  compare ((a * Nat.pow 10 e.toNat) <<< (-q).toNat) ((b * Nat.pow 10 (-e).toNat) <<< q.toNat)

/-- Whether `digits * 10 ^ e` rounds to `mantissa * 2 ^ exponent`: whether it lies between the
midpoints to both neighbours, which count if the mantissa is even. -/
def roundsTo (digits : Nat) (e : Int) (mantissa : Nat) (exponent : Int) : Bool :=
  let narrow := mantissa == 1 <<< 52 && minExponent < exponent
  let low := comparePowers digits e (if narrow then 4 * mantissa - 1 else 4 * mantissa - 2)
    (exponent - 2)
  let high := comparePowers digits e (4 * mantissa + 2) (exponent - 2)
  if mantissa % 2 == 0 then low.isGE && high.isLE else low.isGT && high.isLT

/-- Of two neighbours on the grid `10 ^ e`, of which the lower is given, the nearest that rounds to
`mantissa * 2 ^ exponent`; the upper one if both are equally near. -/
def onGrid? (lower : Nat) (e : Int) (mantissa : Nat) (exponent : Int) : Option Nat :=
  match roundsTo lower e mantissa exponent, roundsTo (lower + 1) e mantissa exponent with
  | true, true =>
    if (comparePowers (2 * lower + 1) e (2 * mantissa) exponent).isGT then some lower
    else some (lower + 1)
  | true, false => some lower
  | false, true => some (lower + 1)
  | false, false => none

/-- The least exponent of a power of ten above `mantissa * 2 ^ exponent`, from an estimate below
it. -/
def magnitude (mantissa : Nat) (exponent : Int) (estimate : Int) : Nat → Int
  | 0 => estimate
  | n + 1 =>
    if (comparePowers 1 estimate mantissa exponent).isGT then estimate
    else magnitude mantissa exponent (estimate + 1) n

/-- The first grid from `10 ^ e` downwards that has a number that rounds to the double. -/
def search (mantissa : Nat) (exponent : Int) (e : Int) : Nat → Nat × Int
  | 0 => (mantissa, 0)
  | n + 1 =>
    let (u, d) := quotient mantissa exponent
    let lower := u * Nat.pow 10 (-e).toNat / (d * Nat.pow 10 e.toNat)
    match onGrid? lower e mantissa exponent with
    | some digits => (digits, e)
    | none => search mantissa exponent (e - 1) n

/-- Digits and exponent of the shortest decimal that rounds to a positive double. -/
def shortest (mantissa : Nat) (exponent : Int) : Nat × Int :=
  let estimate := ((mantissa.log2 : Int) + exponent) * 30103 / 100000 - 1
  search mantissa exponent (magnitude mantissa exponent estimate 4 - 1) 20

/-- `digits * 10 ^ e` with a point and at least one digit on both sides of it. -/
def positional (digits : Nat) (e : Int) : List Char :=
  let row := Nat.toDigits 10 digits
  if 0 ≤ e then row ++ List.replicate e.toNat '0' ++ ['.', '0']
  else
    let places := (-e).toNat
    let row := List.replicate (places + 1 - row.length) '0' ++ row
    row.take (row.length - places) ++ '.' :: row.drop (row.length - places)

def text : Double → String
  | finite negative mantissa exponent =>
    let (digits, e) := if mantissa = 0 then (0, 0) else shortest mantissa exponent
    String.ofList ((if negative then ['-'] else []) ++ positional digits e)
  | infinite negative => if negative then "-inf" else "inf"
  | nan => "NaN"

end Double
end FluentMigration
