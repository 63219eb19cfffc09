import TInvest.Decimal.Basic

/-!
# `Decimal` as text

`Decimal::to_string` and `Decimal::from_string`. A C++ string is a list of characters;
the loops over an index become recursions over the characters that are left. As in
`Decimal.Basic` a signed overflow is `none`, so `fromString` has two kinds of failure:
`none` is a run with an overflow, `some none` the returned `nullopt`.
-/

namespace TInvest

open Lib.Signed

namespace Decimal

/-! ## Printing -/

/-- The magnitude of `units_` as a `uint64`, without negating `-2^63`. -/
def magnitude (units : Int64) : Checked ℕ :=
  if units.toInt < 0 then do
    let next ← checked 64 (units.toInt + 1)
    let opposite ← checked 64 (-next)
    return (opposite.toNat + 1) % 2 ^ 64
  else
    return units.toInt.toNat

/-- The magnitude of `nano_` as a `uint32`. -/
def fraction (nano : Int32) : Checked ℕ :=
  if nano.toInt < 0 then do
    let opposite ← checked 32 (-nano.toInt)
    return opposite.toNat
  else
    return nano.toInt.toNat

/-- The loop that fills `buf` from its last position down. -/
def fillBuf : ℕ → ℕ → List Char → List Char
  | 0, _, buf => buf
  | i + 1, frac, buf => fillBuf i (frac / 10) (Nat.digitChar (frac % 10) :: buf)

/-- `while (len > 0 && buf[len - 1] == '0') --len`. -/
def trimLen (buf : List Char) : ℕ → ℕ
  | 0 => 0
  | len + 1 => if buf[len]? = some '0' then trimLen buf len else len + 1

/-- The part of the text after the integer digits. -/
def fracText (frac : ℕ) : List Char :=
  if frac = 0 then []
  else
    let buf := fillBuf 9 frac []
    '.' :: buf.take (trimLen buf 9)

/-- The characters of `to_string`. -/
def toChars (d : Decimal) : Checked (List Char) := do
  let sign := if d.units.toInt < 0 ∨ d.nano.toInt < 0 then ['-'] else []
  let u ← magnitude d.units
  let frac ← fraction d.nano
  return sign ++ (Nat.toDigits 10 u ++ fracText frac)

/-- `to_string`. -/
def toString (d : Decimal) : Checked String := do
  return String.ofList (← d.toChars)

/-! ## Parsing -/

/-- `s[i] - '0'`. -/
def digitValue (c : Char) : ℤ := c.toNat - '0'.toNat

/-- The loop over the integer digits: the accumulated `units`, whether a digit was read,
and what is left of the text. -/
def unitsLoop : List Char → ℤ → Bool → Checked (ℤ × Bool × List Char)
  | [], units, any => some (units, any, [])
  | c :: cs, units, any =>
    if c.isDigit then do
      let tens ← checked 64 (units * 10)
      let units ← checked 64 (tens + digitValue c)
      unitsLoop cs units true
    else
      some (units, any, c :: cs)

/-- The loop over the fractional digits; `scale` reaches `0` after nine of them. -/
def nanoLoop : List Char → ℤ → ℤ → Bool → Checked (ℤ × Bool × List Char)
  | [], nano, _, any => some (nano, any, [])
  | c :: cs, nano, scale, any =>
    if c.isDigit then do
      let term ← checked 64 (digitValue c * scale)
      let nano ← checked 32 (nano + (Int32.ofInt term).toInt)
      nanoLoop cs nano (scale.tdiv 10) true
    else
      some (nano, any, c :: cs)

/-- Everything after the integer digits: `nano` and whether a digit was read, or `none` for
`return std::nullopt`. -/
def parseFraction (rest : List Char) (any : Bool) : Checked (Option (ℤ × Bool)) :=
  match rest with
  | [] => some (some (0, any))
  | c :: cs =>
    if c ≠ '.' ∧ c ≠ ',' then some none
    else do
      let (nano, any, rest) ← nanoLoop cs 0 (kNano.tdiv 10) any
      return if rest.isEmpty then some (nano, any) else none

/-- `return Decimal(neg ? -units : units, neg ? -nano : nano)`. -/
def signed (neg : Bool) (units nano : ℤ) : Checked Decimal := do
  let units ← checked64 (if neg then -units else units)
  let nano ← checked32 (if neg then -nano else nano)
  make units nano

/-- The text after the optional sign. -/
def parseUnsigned (neg : Bool) (cs : List Char) : Checked (Option Decimal) := do
  let (units, any, rest) ← unitsLoop cs 0 false
  match ← parseFraction rest any with
  | none => return none
  | some (nano, any) => if any then some <$> signed neg units nano else return none

/-- `from_string` on the characters of its argument. -/
def fromChars : List Char → Checked (Option Decimal)
  | [] => some none
  | c :: cs =>
    if c = '-' ∨ c = '+' then parseUnsigned (c == '-') cs else parseUnsigned false (c :: cs)

/-- `from_string`. -/
def fromString (s : String) : Checked (Option Decimal) := fromChars s.toList

end Decimal

/-- `Money::to_string`. -/
def Money.toString (m : Money) : Checked String := do
  return (← m.amount.toString) ++ " " ++ m.currency

end TInvest
