import TInvest.Lib.Signed

/-!
# `Decimal`: fixed-point numbers of nano-units

The class `Decimal` of `include/tinvest/decimal.hpp` and the protobuf records it is
converted from and to. A decimal is a pair `units + nano / 10⁹` of an `int64` and an
`int32`; arithmetic goes through the 128-bit total of nano-units.

Every signed operation of the source is a `Checked` step here, so `none` is a run with a
signed overflow. Conversions to a narrower type (`static_cast`, compound assignment to
`nano_`) wrap. The floating-point conversions `from_double` and `to_double` are left out.
-/

namespace TInvest

open Lib.Signed

namespace Pb

/-- `Quotation` of `contracts/common.proto`. -/
structure Quotation where
  units : Int64
  nano : Int32
deriving DecidableEq

/-- `MoneyValue` of `contracts/common.proto`. -/
structure MoneyValue where
  currency : String
  units : Int64
  nano : Int32
deriving DecidableEq

end Pb

/-- The two fields of the class. The class invariant is `Decimal.Canonical`, not a field:
`from_total` builds values that break it. -/
structure Decimal where
  units : Int64 := 0
  nano : Int32 := 0
deriving DecidableEq

namespace Decimal

/-- `kNano`, the number of nano-units in a unit. -/
def kNano : ℤ := 1000000000

/-- The carry of `normalize`: whole units move from `nano` to `units`. -/
def carry (units : Int64) (nano : Int32) : Checked (Int64 × Int32) :=
  if nano.toInt ≤ -kNano ∨ kNano ≤ nano.toInt then do
    let units ← checked64 (units.toInt + nano.toInt.tdiv kNano)
    return (units, Int32.ofInt (nano.toInt.tmod kNano))
  else
    return (units, nano)

/-- The borrow of `normalize`: opposite signs are resolved by one unit. -/
def borrow (units : Int64) (nano : Int32) : Checked Decimal :=
  if 0 < units.toInt ∧ nano.toInt < 0 then do
    let units ← checked64 (units.toInt - 1)
    return ⟨units, Int32.ofInt (nano.toInt + kNano)⟩
  else if units.toInt < 0 ∧ 0 < nano.toInt then do
    let units ← checked64 (units.toInt + 1)
    return ⟨units, Int32.ofInt (nano.toInt - kNano)⟩
  else
    return ⟨units, nano⟩

/-- `normalize`. -/
def normalize (units : Int64) (nano : Int32) : Checked Decimal := do
  let (units, nano) ← carry units nano
  borrow units nano

/-- The constructor `Decimal(units, nano)`. -/
def make (units : Int64) (nano : Int32 := 0) : Checked Decimal := normalize units nano

/-- The constructor `Decimal(const pb::Quotation&)`. -/
def ofQuotation (q : Pb.Quotation) : Checked Decimal := make q.units q.nano

/-- The constructor `Decimal(const pb::MoneyValue&)`. -/
def ofMoney (m : Pb.MoneyValue) : Checked Decimal := make m.units m.nano

def isZero (d : Decimal) : Bool := d.units == 0 && d.nano == 0

def toQuotation (d : Decimal) : Pb.Quotation := ⟨d.units, d.nano⟩

def toMoney (d : Decimal) (currency : String) : Pb.MoneyValue := ⟨currency, d.units, d.nano⟩

/-- `total`, in `__int128`. -/
def total (d : Decimal) : Checked ℤ := do
  let scaled ← checked 128 (d.units.toInt * kNano)
  checked 128 (scaled + d.nano.toInt)

/-- `from_total`: truncating division, then two narrowing casts. -/
def fromTotal (t : ℤ) : Decimal :=
  ⟨Int64.ofInt (t.tdiv kNano), Int32.ofInt (t.tmod kNano)⟩

/-- `div_round`: division by zero is undefined as well. -/
def divRound (num den : ℤ) : Checked ℤ :=
  let half := den.tdiv 2
  if den = 0 then none
  else if decide (0 ≤ num) = decide (0 ≤ den) then do
    let shifted ← checked 128 (num + half)
    checked 128 (shifted.tdiv den)
  else do
    let shifted ← checked 128 (num - half)
    checked 128 (shifted.tdiv den)

/-! ## Operators -/

/-- `a + b`. -/
def add (a b : Decimal) : Checked Decimal := do
  let t ← checked 128 ((← a.total) + (← b.total))
  return fromTotal t

/-- `a - b`. -/
def sub (a b : Decimal) : Checked Decimal := do
  let t ← checked 128 ((← a.total) - (← b.total))
  return fromTotal t

/-- `-a`. -/
def neg (a : Decimal) : Checked Decimal := do
  let t ← checked 128 (-(← a.total))
  return fromTotal t

/-- `a * b`. -/
def mul (a b : Decimal) : Checked Decimal := do
  let product ← checked 128 ((← a.total) * (← b.total))
  return fromTotal (← divRound product kNano)

/-- `a * k`. -/
def mulInt (a : Decimal) (k : Int64) : Checked Decimal := do
  let t ← checked 128 ((← a.total) * k.toInt)
  return fromTotal t

/-- `k * a`. -/
def intMul (k : Int64) (a : Decimal) : Checked Decimal := a.mulInt k

/-- `a / k`. -/
def divInt (a : Decimal) (k : Int64) : Checked Decimal := do
  return fromTotal (← divRound (← a.total) k.toInt)

/-- `a / b`. -/
def div (a b : Decimal) : Checked Decimal := do
  let num ← checked 128 ((← a.total) * kNano)
  return fromTotal (← divRound num (← b.total))

/-- `a == b` compares the fields. -/
def eq (a b : Decimal) : Bool := a.units == b.units && a.nano == b.nano

/-- `a < b` compares the totals. -/
def lt (a b : Decimal) : Checked Bool := do
  return decide ((← a.total) < (← b.total))

/-- `a > b`. -/
def gt (a b : Decimal) : Checked Bool := b.lt a

/-- `a <= b`. -/
def le (a b : Decimal) : Checked Bool := do return !(← b.lt a)

/-- `a >= b`. -/
def ge (a b : Decimal) : Checked Bool := do return !(← a.lt b)

/-- `a != b`. -/
def ne (a b : Decimal) : Bool := !a.eq b

/-! ## The class invariant and the number a pair stands for -/

/-- The number of nano-units a pair stands for. -/
def value (d : Decimal) : ℤ := d.units.toInt * kNano + d.nano.toInt

/-- The documented class invariant: `|nano| < 10⁹`, and `units` and `nano` do not have
opposite signs. -/
def Canonical (d : Decimal) : Prop :=
  -kNano < d.nano.toInt ∧ d.nano.toInt < kNano ∧
    ¬ (0 < d.units.toInt ∧ d.nano.toInt < 0) ∧ ¬ (d.units.toInt < 0 ∧ 0 < d.nano.toInt)

instance (d : Decimal) : Decidable d.Canonical := inferInstanceAs (Decidable (_ ∧ _))

/-- `t` is the total of some canonical pair. -/
def Representable (t : ℤ) : Prop := ∃ d : Decimal, d.Canonical ∧ d.value = t

end Decimal

/-- `Money`: an amount and its currency code. -/
structure Money where
  currency : String
  amount : Decimal
deriving DecidableEq

namespace Money

/-- The constructor `Money(const pb::MoneyValue&)`. -/
def ofPb (m : Pb.MoneyValue) : Checked Money := do
  return ⟨m.currency, ← Decimal.make m.units m.nano⟩

def toPb (m : Money) : Pb.MoneyValue := m.amount.toMoney m.currency

/-- `a == b`. -/
def eq (a b : Money) : Bool := a.currency == b.currency && a.amount.eq b.amount

end Money

end TInvest
