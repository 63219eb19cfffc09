import TInvest.Lib.Rounding
import TInvest.Decimal.Theorems

/-!
# Multiplication and division of decimals

* `divRound_eq` — `div_round` is rounding half away from zero, for every sign and parity of
  the divisor, as long as the operands leave room for the half;
* `mul_spec`, `div_spec`, `divInt_spec` — the operators return the canonical pair of the
  rounded result whenever there is one; a result in range leaves that room;
* `mul_div_round_half_away`, `int_overloads_agree` — the two results assembled from them.
-/

namespace TInvest
namespace Decimal

open Lib.Signed
open Lib.Rounding

/-! ## `div_round` -/

/-- `div_round` rounds half away from zero when both operands are at most `2^126`. -/
lemma divRound_eq {num den : ℤ} (hden : den ≠ 0) (hnum : |num| ≤ 2 ^ 126)
    (hbound : |den| ≤ 2 ^ 126) :
    divRound num den = some (halfAway ((num : ℚ) / den)) := by
  rw [abs_le] at hnum hbound
  have hhalf : -2 ^ 125 ≤ den.tdiv 2 ∧ den.tdiv 2 ≤ 2 ^ 125 := by
    obtain ⟨hrec, hlt, hgt, -, -⟩ := tdiv_tmod_spec den (k := 2) (by decide)
    omega
  -- the quotient is not larger than the dividend
  have hquot : ∀ x : ℤ, -(2 ^ 126 + 2 ^ 125) ≤ x → x ≤ 2 ^ 126 + 2 ^ 125 →
      Fits 128 (x.tdiv den) := by
    intro x hlow hhigh
    have hle : (x.tdiv den).natAbs ≤ x.natAbs := by
      rw [Int.natAbs_tdiv]
      exact Nat.div_le_self _ _
    refine fits128_of_bounds ?_ ?_ <;> omega
  rw [halfAway_div num hden, divRound]
  simp only [if_neg hden]
  split
  · have hfit : Fits 128 (num + den.tdiv 2) := by
      refine fits128_of_bounds ?_ ?_ <;> omega
    rw [checked_of_fits hfit, Option.bind_eq_bind, Option.bind_some,
      checked_of_fits (hquot _ (by omega) (by omega))]
  · have hfit : Fits 128 (num - den.tdiv 2) := by
      refine fits128_of_bounds ?_ ?_ <;> omega
    rw [checked_of_fits hfit, Option.bind_eq_bind, Option.bind_some,
      checked_of_fits (hquot _ (by omega) (by omega))]

/-- A total is far below `2^126`, and so is a total scaled by `kNano`. -/
lemma abs_value_le (d : Decimal) : |d.value| ≤ 2 ^ 94 := by
  have h := value_bounds d
  simp only [kNano] at h
  rw [abs_le]
  omega

/-- A dividend is bounded by its rounded quotient. -/
lemma abs_le_of_halfAway {num den z : ℤ} (hden : 0 < den) (h : halfAway ((num : ℚ) / den) = z) :
    2 * |num - z * den| ≤ den := by
  have hden' : (0 : ℚ) < den := by exact_mod_cast hden
  have hnear := abs_sub_halfAway_le ((num : ℚ) / den)
  rw [h] at hnear
  have hscale : |(num : ℚ) - z * den| = |(num : ℚ) / den - z| * den := by
    rw [← abs_of_pos hden', ← abs_mul, abs_of_pos hden', sub_mul, div_mul_cancel₀ _ hden'.ne']
  have hle : 2 * |(num : ℚ) - z * den| ≤ den := by
    rw [hscale]
    nlinarith
  exact_mod_cast hle

/-! ## The operators -/

/-- A product whose rounded quotient by `kNano` is the total of a canonical pair. -/
lemma abs_product_le {p : ℤ} {c : Decimal} (h : c.value = halfAway ((p : ℚ) / kNano)) :
    |p| ≤ 2 ^ 126 := by
  have hnear := abs_le_of_halfAway (by decide : 0 < kNano) h.symm
  have hc := abs_value_le c
  rw [abs_le] at hc
  simp only [kNano] at hnear
  have hlow := neg_abs_le (p - c.value * 1000000000)
  have hhigh := le_abs_self (p - c.value * 1000000000)
  rw [abs_le]
  omega

/-- A total scaled by `kNano` leaves room for half of a divisor. -/
lemma abs_scaled_le (a : Decimal) : |a.value * kNano| ≤ 2 ^ 125 := by
  have ha := abs_value_le a
  rw [abs_le] at ha ⊢
  simp only [kNano]
  omega

lemma fits_scaled (a : Decimal) : Fits 128 (a.value * kNano) := by
  have h := abs_scaled_le a
  rw [abs_le] at h
  refine fits128_of_bounds ?_ ?_ <;> omega

/-- `a * b` is the rounded product whenever that is the total of a canonical pair. -/
lemma mul_spec {a b c : Decimal} (hc : c.Canonical)
    (h : c.value = halfAway (((a.value * b.value : ℤ) : ℚ) / kNano)) :
    a.mul b = some c := by
  have hbound : |a.value * b.value| ≤ 2 ^ 126 := abs_product_le h
  have hround := divRound_eq (by decide : kNano ≠ 0) hbound (by decide)
  have hfit : Fits 128 (a.value * b.value) := by
    rw [abs_le] at hbound
    refine fits128_of_bounds ?_ ?_ <;> omega
  rw [← h] at hround
  simp only [mul, total_eq, Option.bind_eq_bind, Option.bind_some, checked_of_fits hfit, hround,
    fromTotal_value hc, pure]

/-- `a / b` is the rounded quotient whenever that is the total of a canonical pair. -/
lemma div_spec {a b c : Decimal} (hb : b.value ≠ 0) (hc : c.Canonical)
    (h : c.value = halfAway (((a.value * kNano : ℤ) : ℚ) / b.value)) :
    a.div b = some c := by
  have hbound := abs_scaled_le a
  have hround := divRound_eq hb (hbound.trans (by decide)) ((abs_value_le b).trans (by decide))
  rw [← h] at hround
  simp only [div, total_eq, Option.bind_eq_bind, Option.bind_some,
    checked_of_fits (fits_scaled a), hround, fromTotal_value hc, pure]

/-- `a / k` is the narrowed rounded quotient, in range or not. -/
lemma divInt_eq (a : Decimal) {k : Int64} (hk : k.toInt ≠ 0) :
    a.divInt k = some (fromTotal (halfAway ((a.value : ℚ) / k.toInt))) := by
  have hkle : |k.toInt| ≤ 2 ^ 126 := by
    have hlow := k.le_toInt
    have hhigh := k.toInt_lt
    rw [abs_le]
    omega
  have hround := divRound_eq hk ((abs_value_le a).trans (by decide)) hkle
  simp only [divInt, total_eq, Option.bind_eq_bind, Option.bind_some, hround, pure]

/-- `a / k` likewise. -/
lemma divInt_spec {a c : Decimal} {k : Int64} (hk : k.toInt ≠ 0) (hc : c.Canonical)
    (h : c.value = halfAway ((a.value : ℚ) / k.toInt)) :
    a.divInt k = some c := by
  rw [divInt_eq a hk, ← h, fromTotal_value hc]

/-- A canonical pair with a non-zero field has a non-zero total. -/
lemma value_ne_zero {b : Decimal} (hb : b.Canonical) (h : b.isZero = false) : b.value ≠ 0 := by
  intro hval
  have hzero : b = ⟨0, 0⟩ := canonical_ext hb (by decide) (by rw [hval]; decide)
  rw [hzero] at h
  exact absurd h (by decide)

/-- The dividend of `a / b`, moved by half of the divisor either way, stays in range. -/
lemma fits_scaled_half (a b : Decimal) :
    Fits 128 (a.value * kNano + b.value.tdiv 2) ∧ Fits 128 (a.value * kNano - b.value.tdiv 2) := by
  have ha := abs_scaled_le a
  have hb := abs_value_le b
  rw [abs_le] at ha hb
  obtain ⟨hrec, hlt, hgt, -, -⟩ := tdiv_tmod_spec b.value (k := 2) (by decide)
  constructor <;> refine fits128_of_bounds ?_ ?_ <;> omega

/-- The dividend of `a / k`, moved by half of the divisor either way, stays in range. -/
lemma fits_half (a : Decimal) (k : Int64) :
    Fits 128 (a.value + k.toInt.tdiv 2) ∧ Fits 128 (a.value - k.toInt.tdiv 2) := by
  have ha := abs_value_le a
  have hlow := k.le_toInt
  have hhigh := k.toInt_lt
  rw [abs_le] at ha
  obtain ⟨hrec, hlt, hgt, -, -⟩ := tdiv_tmod_spec k.toInt (k := 2) (by decide)
  constructor <;> refine fits128_of_bounds ?_ ?_ <;> omega

/-- **Rounding.** For canonical operands, `a * b` is the product of the totals over `kNano`
rounded half away from zero whenever that is the total of a canonical pair; the dividend of
`a / b` and of `a / k` moved by half of a non-zero divisor fits `__int128` always, and `a / b` and
`a / k` are the rounded quotients whenever these are totals of canonical pairs. Each result comes
without a signed overflow on the way, and `a / k` does whatever the quotient. -/
theorem mul_div_round_half_away :
    ∀ a b : Decimal, a.Canonical → b.Canonical →
    (∀ c : Decimal, c.Canonical →
      c.value = halfAway (((a.value * b.value : ℤ) : ℚ) / kNano) →
      a.mul b = some c ∧ Fits 128 (a.value * b.value) ∧
        Fits 128 (a.value * b.value + kNano.tdiv 2) ∧
        Fits 128 (a.value * b.value - kNano.tdiv 2)) ∧
    (b.isZero = false →
      Fits 128 (a.value * kNano) ∧ Fits 128 (a.value * kNano + b.value.tdiv 2) ∧
        Fits 128 (a.value * kNano - b.value.tdiv 2) ∧
        ∀ c : Decimal, c.Canonical →
          c.value = halfAway (((a.value * kNano : ℤ) : ℚ) / b.value) → a.div b = some c) ∧
    ∀ k : Int64, k ≠ 0 →
      Fits 128 (a.value + k.toInt.tdiv 2) ∧ Fits 128 (a.value - k.toInt.tdiv 2) ∧
        (∃ d, a.divInt k = some d) ∧
        ∀ c : Decimal, c.Canonical →
          c.value = halfAway ((a.value : ℚ) / k.toInt) → a.divInt k = some c := by
  intro a b _ hb
  refine ⟨fun c hc h => ⟨mul_spec hc h, ?_⟩, fun hzero => ?_, fun k hk => ?_⟩
  · have hbound : |a.value * b.value| ≤ 2 ^ 126 := abs_product_le h
    have hhalf : kNano.tdiv 2 = 500000000 := by decide
    rw [abs_le] at hbound
    rw [hhalf]
    refine ⟨fits128_of_bounds ?_ ?_, fits128_of_bounds ?_ ?_, fits128_of_bounds ?_ ?_⟩ <;> omega
  · have hval : b.value ≠ 0 := value_ne_zero hb hzero
    obtain ⟨hadd, hsub⟩ := fits_scaled_half a b
    exact ⟨fits_scaled a, hadd, hsub, fun c hc h => div_spec hval hc h⟩
  · have hk' : k.toInt ≠ 0 := fun h0 => hk (Int64.toInt_inj.mp h0)
    obtain ⟨hadd, hsub⟩ := fits_half a k
    exact ⟨hadd, hsub, ⟨_, divInt_eq a hk'⟩, fun c hc h => divInt_spec hk' hc h⟩

/-- Ties of a product and of a quotient, and the divisor `-2^63`. -/
theorem mul_div_round_at_ties :
    mul ⟨0, -1⟩ ⟨0, 500000000⟩ = some ⟨0, -1⟩ ∧ div ⟨0, -1⟩ ⟨2, 0⟩ = some ⟨0, -1⟩ ∧
      divInt ⟨4611686018427387904, 0⟩ (-9223372036854775808) = some ⟨0, -500000000⟩ := by
  have hmul := (mul_div_round_half_away ⟨0, -1⟩ ⟨0, 500000000⟩ (by decide) (by decide)).1
    ⟨0, -1⟩ (by decide) (by rw [halfAway_div _ (by decide)]; decide)
  have hdiv := (mul_div_round_half_away ⟨0, -1⟩ ⟨2, 0⟩ (by decide) (by decide)).2.1 (by decide)
  have hint := (mul_div_round_half_away ⟨4611686018427387904, 0⟩ ⟨0, 0⟩ (by decide)
    (by decide)).2.2 (-9223372036854775808) (by decide)
  exact ⟨hmul.1, hdiv.2.2.2 ⟨0, -1⟩ (by decide) (by rw [halfAway_div _ (by decide)]; decide),
    hint.2.2.2 ⟨0, -500000000⟩ (by decide) (by rw [halfAway_div _ (by decide)]; decide)⟩

/-! ## The integer overloads -/

/-- `Decimal(k)` is `k` units. -/
lemma make_units (k : Int64) :
    make k = some ⟨k, 0⟩ ∧ (⟨k, 0⟩ : Decimal).Canonical ∧
      (⟨k, 0⟩ : Decimal).value = k.toInt * kNano := by
  have hcan : (⟨k, 0⟩ : Decimal).Canonical := by
    have hzero : (0 : Int32).toInt = 0 := rfl
    simp only [Canonical, hzero, kNano]
    omega
  exact ⟨normalize_spec hcan rfl, hcan, add_zero _⟩

/-- Scaling the dividend and the divisor by `kNano` does not change the quotient. -/
lemma scaled_quotient (x y : ℤ) : ((x * kNano : ℤ) : ℚ) / ((y * kNano : ℤ) : ℚ) = (x : ℚ) / y := by
  have hnano : ((kNano : ℤ) : ℚ) ≠ 0 := by norm_num [kNano]
  push_cast
  exact mul_div_mul_right _ _ hnano

/-- **The integer overloads.** `a * k`, `k * a` and `a * Decimal(k)` return the same canonical
pair, that of the exact product, whenever there is one; and for a non-zero `k`, `a / k` and
`a / Decimal(k)` return the same pair whenever the rounded quotient has one. -/
theorem int_overloads_agree :
    ∀ (a : Decimal) (k : Int64), a.Canonical →
    (Representable (a.value * k.toInt) →
      ∃ d c, make k = some d ∧ c.Canonical ∧ c.value = a.value * k.toInt ∧
        a.mulInt k = some c ∧ intMul k a = some c ∧ a.mul d = some c) ∧
    (k ≠ 0 → Representable (halfAway ((a.value : ℚ) / k.toInt)) →
      ∃ d c, make k = some d ∧ c.Canonical ∧ c.value = halfAway ((a.value : ℚ) / k.toInt) ∧
        a.divInt k = some c ∧ a.div d = some c) := by
  intro a k _
  obtain ⟨hmake, -, hval⟩ := make_units k
  constructor
  · intro ⟨c, hc, hprod⟩
    have hint : a.mulInt k = some c := by
      rw [mulInt_eq (hprod ▸ value_inRange hc), ← hprod, fromTotal_value hc]
    -- the scaled product is a whole number of nano-units, so nothing is rounded
    have hexact : c.value = halfAway (((a.value * (⟨k, 0⟩ : Decimal).value : ℤ) : ℚ) / kNano) := by
      have hquot : ((a.value * (⟨k, 0⟩ : Decimal).value : ℤ) : ℚ) / kNano
          = ((c.value : ℤ) : ℚ) / (1 : ℤ) := by
        rw [hval, ← mul_assoc, ← hprod]
        have h := scaled_quotient c.value 1
        rwa [one_mul] at h
      have hhalf : (1 : ℤ).tdiv 2 = 0 := by decide
      rw [hquot, halfAway_div _ one_ne_zero, hhalf, add_zero, sub_zero, ite_self, Int.tdiv_one]
    exact ⟨⟨k, 0⟩, c, hmake, hc, hprod, hint, hint, mul_spec hc hexact⟩
  · intro hk ⟨c, hc, hquot⟩
    have hk' : k.toInt ≠ 0 := fun h0 => hk (Int64.toInt_inj.mp h0)
    have hval' : (⟨k, 0⟩ : Decimal).value ≠ 0 := by
      rw [hval]
      exact mul_ne_zero hk' (by decide)
    have hscaled : c.value
        = halfAway (((a.value * kNano : ℤ) : ℚ) / (⟨k, 0⟩ : Decimal).value) := by
      rw [hval, scaled_quotient, hquot]
    exact ⟨⟨k, 0⟩, c, hmake, hc, hquot, divInt_spec hk' hc hquot, div_spec hval' hc hscaled⟩

/-- The overloads at `-4` nano-units and the odd negative operand `-7`. -/
theorem int_overloads_agree_at_odd :
    (∃ d c, make (-7) = some d ∧ c.Canonical ∧ c.value = value ⟨0, -4⟩ * (-7 : Int64).toInt ∧
        mulInt ⟨0, -4⟩ (-7) = some c ∧ intMul (-7) ⟨0, -4⟩ = some c ∧ mul ⟨0, -4⟩ d = some c) ∧
      ∃ d c, make (-7) = some d ∧ c.Canonical ∧
        c.value = halfAway ((value ⟨0, -4⟩ : ℚ) / (-7 : Int64).toInt) ∧
        divInt ⟨0, -4⟩ (-7) = some c ∧ div ⟨0, -4⟩ d = some c := by
  have h := int_overloads_agree ⟨0, -4⟩ (-7) (by decide)
  exact ⟨h.1 ⟨⟨0, 28⟩, by decide, by decide⟩,
    h.2 (by decide) ⟨⟨0, 1⟩, by decide, by rw [halfAway_div _ (by decide)]; decide⟩⟩

end Decimal
end TInvest
