import FluentMigration.Double.Basic
import FluentMigration.Text.Number
/-!
JSON values. Numbers keep their digits; what they stand for is computed when it is asked for.
-/

namespace FluentMigration

structure Numeral where
  negative : Bool
  /-- The digits before the point. -/
  whole : List Char
  /-- The digits after the point; nothing if there is no point. -/
  places : List Char
  /-- The sign and the digits of the exponent. -/
  exponent : Option (Bool × List Char)
  deriving DecidableEq, Inhabited

namespace Numeral

def ofNat (n : Nat) : Numeral := ⟨false, Nat.toDigits 10 n, [], none⟩

def maxDigits : Nat := (1 <<< 64) - 1

/-- The value of as many digits as can be kept after those before them, and the digits left. -/
def takeDigits (value : Nat) : List Char → Nat × List Char
  | [] => (value, [])
  | c :: r =>
    let more := 10 * value + (c.toNat - '0'.toNat)
    if maxDigits < more then (value, c :: r) else takeDigits more r

/-- A whole number of 64 bits with a sign, written without point and exponent. -/
def integer? (n : Numeral) : Option Int :=
  let value := Text.decimalValue n.whole
  if !n.places.isEmpty || n.exponent.isSome then none
  else if n.negative then
    if 0 < value && value ≤ 1 <<< 63 then some (-(value : Int)) else none
  else if value < 1 <<< 63 then some value
  else none

/-- A double times a power of ten, in steps that can be taken; none if it is too great. -/
def scale? : Nat → Double → Int → Option Double
  | 0, _, _ => none
  | n + 1, value, e =>
    if e.natAbs ≤ 308 then
      match value.timesPower e.natAbs (e < 0) with
      | .infinite _ => none
      | result => some result
    else match value with
      | .finite _ 0 _ => some value
      | _ => if 0 ≤ e then none else scale? n (value.timesPower 308 true) (e + 308)

/-- The value as a double: the leading digits that can be kept, scaled by a power of ten. None if it
is too great. -/
def double? (n : Numeral) : Option Double :=
  let (value, left) := takeDigits 0 n.whole
  let (value, leftPlaces) := takeDigits value n.places
  let shift : Int := left.length - (n.places.length - leftPlaces.length : Nat)
  let start := Double.nearest n.negative value 1
  match n.exponent with
  | none => scale? 5 start shift
  | some (negative, ds) =>
    let e : Int := Text.decimalValue ds
    if e ≤ Int32.maxValue.toInt then scale? 5 start (if negative then shift - e else shift + e)
    else if negative || value = 0 then some (Double.nearest n.negative 0 1)
    else none

end Numeral

inductive Json where
  | null
  | boolean (value : Bool)
  | number (value : Numeral)
  | string (value : String)
  | array (items : List Json)
  | object (members : List (String × Json))
  /-- A string that holds half of a surrogate pair, or an object with such a name. -/
  | illFormed

end FluentMigration
