/-!
Numerals in a base and the characters they stand for, and whole numbers of 64 bits with a sign, read
from a text from left to right.
-/

namespace FluentMigration
namespace Text

def hexDigit? (c : Char) : Option Nat :=
  if c.isDigit then some (c.toNat - '0'.toNat)
  else if 'a' ≤ c && c ≤ 'f' then some (c.toNat - 'a'.toNat + 10)
  else if 'A' ≤ c && c ≤ 'F' then some (c.toNat - 'A'.toNat + 10)
  else none

def isHex (c : Char) : Bool := (hexDigit? c).isSome

/-- The value of a row of hexadecimal digits; other characters count as zero. -/
def hexValue (digits : List Char) : Nat :=
  digits.foldl (fun n c => 16 * n + (hexDigit? c).getD 0) 0

def decimalValue (digits : List Char) : Nat :=
  digits.foldl (fun n c => 10 * n + (c.toNat - '0'.toNat)) 0

/-- The character with a code point, if there is one: surrogates are none. -/
def char? (n : Nat) : Option Char :=
  if n.isValidChar then some (Char.ofNat n) else none

@[simp] theorem char?_toNat (c : Char) : char? c.toNat = some c := by
  rw [char?, if_pos (show c.toNat.isValidChar from c.valid), Char.ofNat_toNat]

inductive IntegerFault where
  | empty
  | notDigit
  | tooLarge
  | tooSmall
  deriving DecidableEq, Inhabited

def IntegerFault.message : IntegerFault → String
  | empty => "cannot parse integer from empty string"
  | notDigit => "invalid digit found in string"
  | tooLarge => "number too large to fit in target type"
  | tooSmall => "number too small to fit in target type"

/-- The value of digits behind those that make up `value`, up to a greatest value. -/
def integerDigits (limit : Nat) (overflow : IntegerFault) (value : Nat) :
    List Char → Except IntegerFault Nat
  | [] => .ok value
  | c :: r =>
    if !c.isDigit then .error .notDigit
    else
      let more := 10 * value + (c.toNat - '0'.toNat)
      if limit < more then .error overflow else integerDigits limit overflow more r

/-- A sign, which may be left out, and at least one digit. -/
def integer? : List Char → Except IntegerFault Int
  | [] => .error .empty
  | ['-'] => .error .notDigit
  | ['+'] => .error .notDigit
  | '-' :: r => (integerDigits (1 <<< 63) .tooSmall 0 r).map fun n => -(n : Int)
  | '+' :: r => (integerDigits ((1 <<< 63) - 1) .tooLarge 0 r).map fun n => (n : Int)
  | s => (integerDigits ((1 <<< 63) - 1) .tooLarge 0 s).map fun n => (n : Int)

end Text
end FluentMigration
