import TInvest.Lib.Rounding
import TInvest.Decimal.Text

/-!
# The grammar of decimals

What a number may look like for `from_string`, said without the scanner: an optional sign,
digits, and optionally a point or a comma followed by digits, with at least one digit in all.

The scanner accumulates the integer digits in an `int64`, and on a long run of digits the
addition overflows. Which text is accepted does not depend on what the overflow does:
`fromStringOn` is `from_string` with an arbitrary result in the place of an overflowing one.
-/

namespace TInvest
namespace Decimal

open Lib.Signed
open Lib.Rounding

/-! ## Numbers as they are written -/

/-- The text after the optional sign. -/
structure Magnitude where
  ints : List Char
  point : Option Char
  fracs : List Char
  isPoint : ∀ c ∈ point, c = '.' ∨ c = ','
  isDigit : ∀ c ∈ ints ++ fracs, c.isDigit
  some_digit : ints ++ fracs ≠ []
  no_point : point = none → fracs = []

/-- A number as it is written. -/
structure Numeral extends Magnitude where
  sign : Option Char
  isSign : ∀ c ∈ sign, c = '+' ∨ c = '-'

namespace Magnitude

def text (m : Magnitude) : List Char := m.ints ++ (m.point.toList ++ m.fracs)

/-- The integer part. -/
def integer (m : Magnitude) : ℕ := Nat.ofDigitChars 10 m.ints 0

/-- The written number, without its sign. -/
def number (m : Magnitude) : ℚ :=
  (Nat.ofDigitChars 10 (m.ints ++ m.fracs) 0 : ℚ) / 10 ^ m.fracs.length

end Magnitude

namespace Numeral

def chars (n : Numeral) : List Char := n.sign.toList ++ n.text

def neg (n : Numeral) : Bool := n.sign == some '-'

/-- The integer part with its sign. -/
def signedInteger (n : Numeral) : ℤ := if n.neg then -n.integer else n.integer

/-- The written number. -/
def written (n : Numeral) : ℚ := if n.neg then -n.number else n.number

/-- The nano-units of the written number, truncated toward zero. -/
def nanos (n : Numeral) : ℤ := towardZero (n.written * kNano)

end Numeral

/-- `s` is a number of the grammar. -/
def Accepted (s : String) : Prop := ∃ n : Numeral, s.toList = n.chars

/-- The number written by the digits that follow the optional sign. -/
def leadingInteger : List Char → ℕ
  | [] => 0
  | c :: cs =>
    if c = '-' ∨ c = '+' then Nat.ofDigitChars 10 (cs.takeWhile Char.isDigit) 0
    else Nat.ofDigitChars 10 ((c :: cs).takeWhile Char.isDigit) 0

/-! ## `from_string` with overflow resolved -/

/-- What an `int64` operation yields: its mathematical result when that is an `int64`, any
value otherwise. -/
structure Overflow where
  resolve : ℤ → Int64
  exact : ∀ x, Fits 64 x → (resolve x).toInt = x

/-- Two's complement wrapping. -/
def Overflow.wrap : Overflow where
  resolve := Int64.ofInt
  exact := fun _ h => toInt_ofInt64 h

/-- `unitsLoop` with overflow resolved. -/
def unitsLoopOn (ov : Overflow) : List Char → Int64 → Bool → Int64 × Bool × List Char
  | [], units, any => (units, any, [])
  | c :: cs, units, any =>
    if c.isDigit then
      let tens := ov.resolve (units.toInt * 10)
      unitsLoopOn ov cs (ov.resolve (tens.toInt + digitValue c)) true
    else
      (units, any, c :: cs)

/-- `signed` with overflow resolved in the negation of `units`. -/
def signedOn (ov : Overflow) (neg : Bool) (units : Int64) (nano : ℤ) : Checked Decimal := do
  let units := if neg then ov.resolve (-units.toInt) else units
  let nano ← checked32 (if neg then -nano else nano)
  make units nano

/-- `parseUnsigned` with overflow resolved. -/
def parseUnsignedOn (ov : Overflow) (neg : Bool) (cs : List Char) : Checked (Option Decimal) := do
  let (units, any, rest) := unitsLoopOn ov cs 0 false
  match ← parseFraction rest any with
  | none => return none
  | some (nano, any) => if any then some <$> signedOn ov neg units nano else return none

/-- `fromChars` with overflow resolved. -/
def fromCharsOn (ov : Overflow) : List Char → Checked (Option Decimal)
  | [] => some none
  | c :: cs =>
    if c = '-' ∨ c = '+' then parseUnsignedOn ov (c == '-') cs
    else parseUnsignedOn ov false (c :: cs)

/-- `from_string` with overflow resolved. -/
def fromStringOn (ov : Overflow) (s : String) : Checked (Option Decimal) :=
  fromCharsOn ov s.toList

end Decimal
end TInvest
