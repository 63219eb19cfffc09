import TInvest.Decimal.RoundingTheorems
import TInvest.Lib.ErrorBounds

/-!
# Expressions of decimals

Prices, fees and positions are computed by expressions of several operators. `+`, `-` and `* k` are
exact, `*` and `/` round, and what they round is computed with from there on.

* `expression_error` — an expression whose exact intermediate results leave room for their errors
  is computed without overflow, up to a bound that is computed along with it;
* `chain_overflow` — sums and differences may leave the range on the way: a result that fits is
  reached by every order of the operands.
-/

namespace TInvest

open Lib.Signed Lib.Rounding Lib.ErrorBounds

namespace Decimal

/-- An expression of the operators. -/
inductive Expr where
  | val (d : Decimal)
  | add (x y : Expr)
  | sub (x y : Expr)
  | neg (x : Expr)
  | mul (x y : Expr)
  | mulInt (x : Expr) (k : Int64)
  | div (x y : Expr)
  | divInt (x : Expr) (k : Int64)

namespace Expr

/-- What the operators return. -/
def eval : Expr → Checked Decimal
  | val d => some d
  | add x y => do (← x.eval).add (← y.eval)
  | sub x y => do (← x.eval).sub (← y.eval)
  | neg x => do (← x.eval).neg
  | mul x y => do (← x.eval).mul (← y.eval)
  | mulInt x k => do (← x.eval).mulInt k
  | div x y => do (← x.eval).div (← y.eval)
  | divInt x k => do (← x.eval).divInt k

/-- The exact result, in nano-units. -/
def number : Expr → ℚ
  | val d => d.value
  | add x y => x.number + y.number
  | sub x y => x.number - y.number
  | neg x => -x.number
  | mul x y => x.number * y.number / kNano
  | mulInt x k => x.number * k.toInt
  | div x y => x.number * kNano / y.number
  | divInt x k => x.number / k.toInt

/-- The bound of the error, in nano-units. -/
def err : Expr → ℚ
  | val _ => 0
  | add x y => x.err + y.err
  | sub x y => x.err + y.err
  | neg x => x.err
  | mul x y => (|x.number| * y.err + x.err * (|y.number| + y.err)) / |(kNano : ℚ)| + 1 / 2
  | mulInt x k => x.err * |(k.toInt : ℚ)|
  | div x y =>
    (x.err * |(kNano : ℚ)| * |y.number| + |x.number * kNano| * y.err)
      / ((|y.number| - y.err) * |y.number|) + 1 / 2
  | divInt x k => x.err / |(k.toInt : ℚ)| + 1 / 2

/-- The result is in the range of the units wherever in its bound it is. -/
def Fits (x : Expr) : Prop := |x.number| + x.err < 9223372036854775808 * kNano

/-- Every intermediate result fits, and no divisor can be zero. -/
def Safe : Expr → Prop
  | val d => d.Canonical
  | add x y => x.Safe ∧ y.Safe ∧ (add x y).Fits
  | sub x y => x.Safe ∧ y.Safe ∧ (sub x y).Fits
  | neg x => x.Safe ∧ (neg x).Fits
  | mul x y => x.Safe ∧ y.Safe ∧ (mul x y).Fits
  | mulInt x k => x.Safe ∧ (mulInt x k).Fits
  | div x y => x.Safe ∧ y.Safe ∧ y.err < |y.number| ∧ (div x y).Fits
  | divInt x k => x.Safe ∧ k ≠ 0 ∧ (divInt x k).Fits

instance (x : Expr) : Decidable x.Fits := inferInstanceAs (Decidable (_ < _))

instance decidableSafe : (x : Expr) → Decidable x.Safe
  | val d => inferInstanceAs (Decidable d.Canonical)
  | add x y =>
    have := decidableSafe x
    have := decidableSafe y
    inferInstanceAs (Decidable (_ ∧ _ ∧ _))
  | sub x y =>
    have := decidableSafe x
    have := decidableSafe y
    inferInstanceAs (Decidable (_ ∧ _ ∧ _))
  | neg x =>
    have := decidableSafe x
    inferInstanceAs (Decidable (_ ∧ _))
  | mul x y =>
    have := decidableSafe x
    have := decidableSafe y
    inferInstanceAs (Decidable (_ ∧ _ ∧ _))
  | mulInt x _ =>
    have := decidableSafe x
    inferInstanceAs (Decidable (_ ∧ _))
  | div x y =>
    have := decidableSafe x
    have := decidableSafe y
    inferInstanceAs (Decidable (_ ∧ _ ∧ _ ∧ _))
  | divInt x _ =>
    have := decidableSafe x
    inferInstanceAs (Decidable (_ ∧ _ ∧ _))

/-- The expression is computed, and the result is canonical and within the bound. -/
def Computes (x : Expr) : Prop :=
  ∃ d, x.eval = some d ∧ d.Canonical ∧ Near x.err (d.value : ℚ) x.number

/-- A total within the bound is the total of a canonical pair. -/
lemma Fits.inRange {x : Expr} (h : x.Fits) {t : ℤ} (hnear : Near x.err (t : ℚ) x.number) :
    InRange t := by
  have hlt : |(t : ℚ)| < 9223372036854775808 * kNano := hnear.abs_le.trans_lt h
  have hlt' : |t| < 9223372036854775808 * kNano := by exact_mod_cast hlt
  rw [abs_lt] at hlt'
  simp only [InRange, kNano] at hlt' ⊢
  omega

/-- It is enough that the operator returns the canonical pair of a total within the bound. -/
lemma Fits.computes {x : Expr} (h : x.Fits) {t : ℤ} (hnear : Near x.err (t : ℚ) x.number)
    (heval : ∀ c : Decimal, c.Canonical → c.value = t → x.eval = some c) : x.Computes := by
  obtain ⟨hcan, hval⟩ := fromTotal_spec (h.inRange hnear)
  exact ⟨fromTotal t, heval _ hcan hval, hcan, by rwa [hval]⟩

/-! ## One lemma for each operator -/

variable {x y : Expr}

lemma Computes.add (hx : x.Computes) (hy : y.Computes) (h : (add x y).Fits) :
    (add x y).Computes := by
  obtain ⟨a, ha, -, hanear⟩ := hx
  obtain ⟨b, hb, -, hbnear⟩ := hy
  have hnear := hanear.add hbnear
  rw [← Int.cast_add] at hnear
  refine h.computes hnear fun c hc hval => ?_
  simp only [eval, ha, hb, Option.bind_eq_bind, Option.bind_some, add_eq, ← hval,
    fromTotal_value hc]

lemma Computes.sub (hx : x.Computes) (hy : y.Computes) (h : (sub x y).Fits) :
    (sub x y).Computes := by
  obtain ⟨a, ha, -, hanear⟩ := hx
  obtain ⟨b, hb, -, hbnear⟩ := hy
  have hnear := hanear.sub hbnear
  rw [← Int.cast_sub] at hnear
  refine h.computes hnear fun c hc hval => ?_
  simp only [eval, ha, hb, Option.bind_eq_bind, Option.bind_some, sub_eq, ← hval,
    fromTotal_value hc]

lemma Computes.neg (hx : x.Computes) (h : (neg x).Fits) : (neg x).Computes := by
  obtain ⟨a, ha, -, hanear⟩ := hx
  have hnear := hanear.neg
  rw [← Int.cast_neg] at hnear
  refine h.computes hnear fun c hc hval => ?_
  simp only [eval, ha, Option.bind_eq_bind, Option.bind_some, neg_eq, ← hval, fromTotal_value hc]

lemma Computes.mulInt (hx : x.Computes) {k : Int64} (h : (mulInt x k).Fits) :
    (mulInt x k).Computes := by
  obtain ⟨a, ha, -, hanear⟩ := hx
  have hnear := hanear.mul_const (k.toInt : ℚ)
  rw [← Int.cast_mul] at hnear
  refine h.computes hnear fun c hc hval => ?_
  simp only [eval, ha, Option.bind_eq_bind, Option.bind_some, mulInt_eq (h.inRange hnear),
    ← hval, fromTotal_value hc]

lemma Computes.mul (hx : x.Computes) (hy : y.Computes) (h : (mul x y).Fits) :
    (mul x y).Computes := by
  obtain ⟨a, ha, -, hanear⟩ := hx
  obtain ⟨b, hb, -, hbnear⟩ := hy
  -- the product of the totals, over the scale, rounded
  have hnear := ((hanear.mul hbnear).div_const (kNano : ℚ)).round
  rw [← Int.cast_mul] at hnear
  refine h.computes hnear fun c hc hval => ?_
  simp only [eval, ha, hb, Option.bind_eq_bind, Option.bind_some, mul_spec hc hval]

lemma Computes.divInt (hx : x.Computes) {k : Int64} (hk : k ≠ 0) (h : (divInt x k).Fits) :
    (divInt x k).Computes := by
  obtain ⟨a, ha, -, hanear⟩ := hx
  have hk' : k.toInt ≠ 0 := fun h0 => hk (Int64.toInt_inj.mp h0)
  refine h.computes (hanear.div_const (k.toInt : ℚ)).round fun c hc hval => ?_
  simp only [eval, ha, Option.bind_eq_bind, Option.bind_some, divInt_spec hk' hc hval]

lemma Computes.div (hx : x.Computes) (hy : y.Computes) (hlt : y.err < |y.number|)
    (h : (div x y).Fits) : (div x y).Computes := by
  obtain ⟨a, ha, -, hanear⟩ := hx
  obtain ⟨b, hb, -, hbnear⟩ := hy
  -- a divisor that is computed within its bound is not zero
  have hb0 : b.value ≠ 0 := by
    intro hzero
    have hge := hbnear.abs_ge
    rw [hzero, Int.cast_zero, abs_zero] at hge
    linarith
  have hnear := ((hanear.mul_const (kNano : ℚ)).div hbnear hlt).round
  rw [← Int.cast_mul] at hnear
  refine h.computes hnear fun c hc hval => ?_
  simp only [eval, ha, hb, Option.bind_eq_bind, Option.bind_some, div_spec hb0 hc hval]

/-- A safe expression is computed within its bound. -/
lemma computes_of_safe (x : Expr) (h : x.Safe) : x.Computes := by
  induction x with
  | val d => exact ⟨d, rfl, h, Near.refl _⟩
  | add x y ihx ihy => exact (ihx h.1).add (ihy h.2.1) h.2.2
  | sub x y ihx ihy => exact (ihx h.1).sub (ihy h.2.1) h.2.2
  | neg x ih => exact (ih h.1).neg h.2
  | mul x y ihx ihy => exact (ihx h.1).mul (ihy h.2.1) h.2.2
  | mulInt x k ih => exact (ih h.1).mulInt h.2
  | div x y ihx ihy => exact (ihx h.1).div (ihy h.2.1) h.2.2.1 h.2.2.2
  | divInt x k ih => exact (ih h.1).divInt h.2.1 h.2.2

end Expr

/-- **Errors of expressions.** An expression of the operators whose exact intermediate results,
with the bounds of their errors, are in the range of the units, and whose divisors are larger than
their errors, is computed without a signed overflow or a division by zero, to a canonical result
within the bound of the whole; and `<` finds the order of two exact results that are further apart
than their bounds. -/
theorem expression_error (x y : Expr) (hx : x.Safe) (hy : y.Safe) :
    ∃ a b, x.eval = some a ∧ y.eval = some b ∧ a.Canonical ∧ b.Canonical ∧
      |(a.value : ℚ) - x.number| ≤ x.err ∧ |(b.value : ℚ) - y.number| ≤ y.err ∧
      (x.number + x.err + y.err < y.number →
        a.lt b = some true ∧ a.eq b = false ∧ b.lt a = some false) := by
  obtain ⟨a, ha, hacan, hanear⟩ := x.computes_of_safe hx
  obtain ⟨b, hb, hbcan, hbnear⟩ := y.computes_of_safe hy
  refine ⟨a, b, ha, hb, hacan, hbcan, hanear, hbnear, fun hlt => ?_⟩
  have hval : a.value < b.value := by exact_mod_cast hanear.lt hbnear hlt
  refine ⟨by rw [lt_eq, decide_eq_true hval], ?_, by rw [lt_eq, decide_eq_false hval.le.not_gt]⟩
  rw [Bool.eq_false_iff, Ne, eq_iff_value hacan hbcan]
  exact hval.ne

/-- A third of a percent of `10.5` is less than `0.04`. -/
theorem expression_error_fee :
    ∃ a b, (Expr.div (.mul (.val ⟨10, 500000000⟩) (.val ⟨1, 0⟩)) (.val ⟨300, 0⟩)).eval = some a ∧
      (Expr.val ⟨0, 40000000⟩).eval = some b ∧ a.lt b = some true := by
  obtain ⟨a, b, ha, hb, -, -, -, -, hlt⟩ := expression_error
    (.div (.mul (.val ⟨10, 500000000⟩) (.val ⟨1, 0⟩)) (.val ⟨300, 0⟩)) (.val ⟨0, 40000000⟩)
    (by decide +kernel) (by decide +kernel)
  exact ⟨a, b, ha, hb, (hlt (by decide +kernel)).1⟩

/-! ## Sums that leave the range on the way -/

namespace Chain

/-- The exact result, in nano-units. -/
def number : Chain → ℤ
  | val d => d.value
  | add x y => x.number + y.number
  | sub x y => x.number - y.number
  | neg x => -x.number

end Chain

/-- `from_total` changes the total by a multiple of the width of the units. -/
lemma fromTotal_modEq (t : ℤ) : (fromTotal t).value ≡ t [ZMOD 18446744073709551616 * kNano] := by
  obtain ⟨hrec, -, -, -, -⟩ := tdiv_tmod_spec t (k := kNano) (by decide)
  obtain ⟨hnano, n, hunits⟩ := fromTotal_fields t
  refine (Int.modEq_iff_add_fac.mpr ⟨n, ?_⟩).symm
  rw [value, hunits, hnano]
  linarith

/-- Whatever the chain did on the way, the total is right up to the width of the units. -/
lemma chain_modEq (x : Chain) :
    ∃ d, x.eval = some d ∧ d.value ≡ x.number [ZMOD 18446744073709551616 * kNano] := by
  induction x with
  | val d => exact ⟨d, rfl, rfl⟩
  | add x y ihx ihy =>
    obtain ⟨a, hx, ha⟩ := ihx
    obtain ⟨b, hy, hb⟩ := ihy
    refine ⟨_, ?_, (fromTotal_modEq _).trans (ha.add hb)⟩
    simp only [Chain.eval, hx, hy, Option.bind_eq_bind, Option.bind_some, add_eq]
  | sub x y ihx ihy =>
    obtain ⟨a, hx, ha⟩ := ihx
    obtain ⟨b, hy, hb⟩ := ihy
    refine ⟨_, ?_, (fromTotal_modEq _).trans (ha.sub hb)⟩
    simp only [Chain.eval, hx, hy, Option.bind_eq_bind, Option.bind_some, sub_eq]
  | neg x ih =>
    obtain ⟨a, hx, ha⟩ := ih
    refine ⟨_, ?_, (fromTotal_modEq _).trans ha.neg⟩
    simp only [Chain.eval, hx, Option.bind_eq_bind, Option.bind_some, neg_eq]

/-- A result that is three units inside the range cannot be taken for another. -/
lemma chain_value {x : Chain} (h : |x.number| ≤ 9223372036854775805 * kNano) :
    ∃ d, x.eval = some d ∧ d.value = x.number := by
  obtain ⟨d, hd, hmod⟩ := chain_modEq x
  obtain ⟨n, hn⟩ := Int.modEq_iff_add_fac.mp hmod
  obtain ⟨hlow, hhigh⟩ := value_bounds d
  rw [abs_le] at h
  simp only [kNano] at h hn hlow hhigh
  exact ⟨d, hd, by omega⟩

/-- **Sums survive an overflow.** A chain of additions, subtractions and negations of any decimals
is computed without a signed overflow, and if the exact result is three units inside the range,
then it has that total, in whatever order the chain is evaluated and however far outside the range
its intermediate results are. So `<` compares two such results correctly, and on the wire both are
read back as the canonical pairs of the exact results, on which `==` is right as well. -/
theorem chain_overflow (x y : Chain) (hx : |x.number| ≤ 9223372036854775805 * kNano)
    (hy : |y.number| ≤ 9223372036854775805 * kNano) :
    (∀ z : Chain, ∃ d, z.eval = some d) ∧
    ∃ a b, x.eval = some a ∧ y.eval = some b ∧ a.value = x.number ∧ b.value = y.number ∧
      a.lt b = some (decide (x.number < y.number)) ∧
      ∃ c d, ofQuotation a.toQuotation = some c ∧ ofQuotation b.toQuotation = some d ∧
        c.Canonical ∧ c.value = x.number ∧ d.Canonical ∧ d.value = y.number ∧
        (c.eq d = true ↔ x.number = y.number) := by
  obtain ⟨a, ha, haval⟩ := chain_value hx
  obtain ⟨b, hb, hbval⟩ := chain_value hy
  have hrange : ∀ t : ℤ, |t| ≤ 9223372036854775805 * kNano → InRange t := by
    intro t ht
    rw [abs_le] at ht
    simp only [InRange, kNano] at ht ⊢
    omega
  obtain ⟨c, hc, hcval⟩ := (representable_iff _).mpr (hrange _ hx)
  obtain ⟨d, hd, hdval⟩ := (representable_iff _).mpr (hrange _ hy)
  have heval : ∀ z : Chain, ∃ d, z.eval = some d := fun z => (chain_modEq z).imp fun _ => And.left
  refine ⟨heval, a, b, ha, hb, haval, hbval, by rw [lt_eq, haval, hbval], c, d,
    normalize_spec hc (hcval.trans haval.symm), normalize_spec hd (hdval.trans hbval.symm),
    hc, hcval, hd, hdval, ?_⟩
  rw [eq_iff_value hc hd, hcval, hdval]

/-- `(2^63 - 1 + 10) - 20` leaves the range and comes back, as `(2^63 - 1 - 20) + 10` does not. -/
theorem chain_overflow_max :
    ∃ a b, (Chain.sub (.add (.val ⟨9223372036854775807, 0⟩) (.val ⟨10, 0⟩))
        (.val ⟨20, 0⟩)).eval = some a ∧
      (Chain.add (.sub (.val ⟨9223372036854775807, 0⟩) (.val ⟨20, 0⟩))
        (.val ⟨10, 0⟩)).eval = some b ∧ a.value = b.value := by
  obtain ⟨-, a, b, ha, hb, haval, hbval, -⟩ := chain_overflow
    (.sub (.add (.val ⟨9223372036854775807, 0⟩) (.val ⟨10, 0⟩)) (.val ⟨20, 0⟩))
    (.add (.sub (.val ⟨9223372036854775807, 0⟩) (.val ⟨20, 0⟩)) (.val ⟨10, 0⟩))
    (by decide) (by decide)
  exact ⟨a, b, ha, hb, by rw [haval, hbval]; decide⟩

end Decimal
end TInvest
