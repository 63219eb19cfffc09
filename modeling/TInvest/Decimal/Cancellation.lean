import TInvest.Decimal.RoundingTheorems

/-!
# Multiplying and dividing by the same decimal

A price is scaled to an amount and back. Multiplication by less than a unit takes several prices to
one amount, so nothing can bring them back; by a unit or more, and by an integer, the division
undoes the multiplication, although both are rounded.
-/

namespace TInvest

open Lib.Rounding

namespace Decimal

/-- `(a * b) / b` returns `a` whenever the product is representable. -/
def Cancels (b : Decimal) : Prop :=
  ∀ a : Decimal, a.Canonical → Representable (halfAway (((a.value * b.value : ℤ) : ℚ) / kNano)) →
    ∃ p, a.mul b = some p ∧ p.div b = some a

/-- The product with a unit of either sign is not rounded. -/
lemma product_unit {b : Decimal} (hb : |b.value| = kNano) {a p : ℤ}
    (hp : p = halfAway (((a * b.value : ℤ) : ℚ) / kNano)) :
    ((a * b.value : ℤ) : ℚ) / kNano = p := by
  have hnano : (kNano : ℚ) ≠ 0 := by norm_num [kNano]
  rcases eq_or_eq_neg_of_abs_eq hb with hunit | hunit
  · have hquot : ((a * b.value : ℤ) : ℚ) / kNano = (a : ℤ) := by
      rw [hunit, Int.cast_mul, mul_div_cancel_right₀ _ hnano]
    rw [hp, hquot, halfAway_intCast]
  · have hquot : ((a * b.value : ℤ) : ℚ) / kNano = (-a : ℤ) := by
      rw [hunit, mul_neg, Int.cast_neg, Int.cast_mul, neg_div, mul_div_cancel_right₀ _ hnano,
        Int.cast_neg]
    rw [hp, hquot, halfAway_intCast]

/-- **A unit or more.** The error of the product is at most a half, and the division does not make
it larger. -/
lemma cancels_of_unit {b : Decimal} (h : kNano ≤ |b.value|) : b.Cancels := by
  intro a ha hrep
  obtain ⟨p, hp, hval⟩ := hrep
  have hnano : (0 : ℚ) < kNano := by norm_num [kNano]
  have hb : (kNano : ℚ) ≤ |(b.value : ℚ)| := by exact_mod_cast h
  have hpos : 0 < |(b.value : ℚ)| := hnano.trans_le hb
  have hb0 : (b.value : ℚ) ≠ 0 := abs_pos.mp hpos
  have hb0' : b.value ≠ 0 := by exact_mod_cast hb0
  refine ⟨p, mul_spec hp hval, div_spec hb0' ha ?_⟩
  have hround : |((a.value * b.value : ℤ) : ℚ) / kNano - p.value| ≤ 1 / 2 := by
    rw [hval]
    exact abs_sub_halfAway_le _
  -- the quotient is off by the error of the product, times the scale over the divisor
  have hsplit : ((p.value * kNano : ℤ) : ℚ) / b.value - a.value
      = -(((a.value * b.value : ℤ) : ℚ) / kNano - p.value) * (kNano / b.value) := by
    push_cast
    field_simp
    ring
  rcases hb.eq_or_lt with heq | hlt
  · have hunit : |b.value| = kNano := by exact_mod_cast heq.symm
    rw [product_unit hunit hval, sub_self, neg_zero, zero_mul, sub_eq_zero] at hsplit
    rw [hsplit, halfAway_intCast]
  · have hratio : |(kNano : ℚ) / b.value| < 1 := by
      rw [abs_div, abs_of_pos hnano]
      exact (div_lt_one hpos).mpr hlt
    refine (halfAway_eq ?_).symm
    rw [hsplit, abs_mul, abs_neg]
    calc |((a.value * b.value : ℤ) : ℚ) / kNano - p.value| * |(kNano : ℚ) / b.value|
        ≤ 1 / 2 * |(kNano : ℚ) / b.value| := mul_le_mul_of_nonneg_right hround (abs_nonneg _)
      _ < 1 / 2 := by linarith

/-! ## Less than a unit -/

/-- A product with a part of a unit is between zero and the other factor. -/
lemma product_mem_uIcc (b : ℤ) {n : ℕ} (hn : (n : ℤ) ≤ kNano) :
    halfAway (((n * b : ℤ) : ℚ) / kNano) ∈ Finset.uIcc 0 b := by
  have hnano : (0 : ℚ) < kNano := by norm_num [kNano]
  have hn' : (n : ℚ) ≤ kNano := by exact_mod_cast hn
  have hpart : ((n * b : ℤ) : ℚ) / kNano = n / kNano * b := by
    push_cast
    ring
  have hnonneg : 0 ≤ (n : ℚ) / kNano := by positivity
  have hle : (n : ℚ) / kNano ≤ 1 := (div_le_one hnano).mpr hn'
  have hzero : halfAway (0 : ℚ) = 0 := by exact_mod_cast halfAway_intCast (K := ℚ) 0
  have hb : halfAway (b : ℚ) = b := halfAway_intCast b
  rw [hpart, Finset.mem_uIcc]
  rcases le_total 0 b with hsign | hsign
  · have hsign' : (0 : ℚ) ≤ b := by exact_mod_cast hsign
    have hlow := halfAway_mono (mul_nonneg hnonneg hsign')
    have hhigh := halfAway_mono (mul_le_of_le_one_left hsign' hle)
    rw [hzero] at hlow
    rw [hb] at hhigh
    exact ⟨(min_le_left 0 b).trans hlow, hhigh.trans (le_max_right 0 b)⟩
  · have hsign' : (b : ℚ) ≤ 0 := by exact_mod_cast hsign
    have hlow := halfAway_mono (show (b : ℚ) ≤ n / kNano * b by nlinarith)
    have hhigh := halfAway_mono (mul_nonpos_of_nonneg_of_nonpos hnonneg hsign')
    rw [hb] at hlow
    rw [hzero] at hhigh
    exact ⟨(min_le_right 0 b).trans hlow, hhigh.trans (le_max_left 0 b)⟩

/-- Two parts of a unit with one product: the division returns both. -/
lemma part_of_product {b : Decimal} (hb : b.Canonical) (h : b.Cancels) {n m : ℕ}
    (hn : (n : ℤ) ≤ kNano) (hm : (m : ℤ) ≤ kNano)
    (heq : halfAway (((n * b.value : ℤ) : ℚ) / kNano)
      = halfAway (((m * b.value : ℤ) : ℚ) / kNano)) : n = m := by
  have hpart : ∀ i : ℕ, (i : ℤ) ≤ kNano → InRange i := by
    intro i hi
    simp only [InRange, kNano] at hi ⊢
    omega
  have hproduct : InRange (halfAway (((n * b.value : ℤ) : ℚ) / kNano)) := by
    have hrange := value_inRange hb
    have hmem := Finset.mem_uIcc.mp (product_mem_uIcc b.value hn)
    simp only [InRange, kNano] at hrange hmem ⊢
    omega
  obtain ⟨hncan, hnval⟩ := fromTotal_spec (hpart n hn)
  obtain ⟨hmcan, hmval⟩ := fromTotal_spec (hpart m hm)
  obtain ⟨c, hc, hnc⟩ := (representable_iff _).mpr hproduct
  have hmc := hnc.trans heq
  rw [← hnval] at hnc
  rw [← hmval] at hmc
  obtain ⟨p, hp, hdiv⟩ := h _ hncan ⟨c, hc, hnc⟩
  obtain ⟨p', hp', hdiv'⟩ := h _ hmcan ⟨c, hc, hmc⟩
  rw [mul_spec hc hnc, Option.some.injEq] at hp
  rw [mul_spec hc hmc, Option.some.injEq] at hp'
  rw [← hp] at hdiv
  rw [← hp', hdiv, Option.some.injEq] at hdiv'
  have hval : (n : ℤ) = m := by rw [← hnval, hdiv', hmval]
  exact_mod_cast hval

/-- **A unit is needed.** The parts of a unit are at most as many as their products. -/
lemma unit_of_cancels {b : Decimal} (hb : b.Canonical) (h : b.Cancels) : kNano ≤ |b.value| := by
  have hpart : ∀ n ∈ Finset.range (kNano.toNat + 1), (n : ℤ) ≤ kNano := by
    intro n hn
    rw [Finset.mem_range] at hn
    simp only [kNano] at hn ⊢
    omega
  have hcard := Finset.card_le_card_of_injOn
    (fun n : ℕ => halfAway (((n * b.value : ℤ) : ℚ) / kNano))
    (fun n hn => product_mem_uIcc b.value (hpart n hn))
    (fun n hn m hm heq => part_of_product hb h (hpart n hn) (hpart m hm) heq)
  rw [Finset.card_range, Int.card_uIcc, sub_zero] at hcard
  have hle : kNano.toNat ≤ b.value.natAbs := by omega
  rw [Int.abs_eq_natAbs]
  simp only [kNano] at hle ⊢
  omega

/-! ## Integers -/

/-- A product with an integer is exact, so the division finds the other factor. -/
lemma divInt_mulInt {a : Decimal} (ha : a.Canonical) {k : Int64} (hk : k ≠ 0)
    (hrep : Representable (a.value * k.toInt)) :
    ∃ p, a.mulInt k = some p ∧ p.divInt k = some a := by
  obtain ⟨p, hp, hval⟩ := hrep
  have hk' : k.toInt ≠ 0 := fun h0 => hk (Int64.toInt_inj.mp h0)
  have hmul : a.mulInt k = some p := by
    rw [mulInt_eq (hval ▸ value_inRange hp), ← hval, fromTotal_value hp]
  refine ⟨p, hmul, divInt_spec hk' ha ?_⟩
  have hkQ : (k.toInt : ℚ) ≠ 0 := by exact_mod_cast hk'
  rw [hval, Int.cast_mul, mul_div_cancel_right₀ _ hkQ, halfAway_intCast]

/-- Split into parts that are put together again: what is lost is half a nano-unit for each. -/
lemma mulInt_divInt {a : Decimal} {k : Int64} (hk : k ≠ 0) {q p : Decimal} (hq : q.Canonical)
    (hp : p.Canonical) (hquot : q.value = halfAway ((a.value : ℚ) / k.toInt))
    (hprod : p.value = q.value * k.toInt) :
    a.divInt k = some q ∧ q.mulInt k = some p ∧ 2 * |p.value - a.value| ≤ |k.toInt| := by
  have hk' : k.toInt ≠ 0 := fun h0 => hk (Int64.toInt_inj.mp h0)
  have hkQ : (k.toInt : ℚ) ≠ 0 := by exact_mod_cast hk'
  have hmul : q.mulInt k = some p := by
    rw [mulInt_eq (hprod ▸ value_inRange hp), ← hprod, fromTotal_value hp]
  refine ⟨divInt_spec hk' hq hquot, hmul, ?_⟩
  have hround := mul_le_mul_of_nonneg_right (abs_sub_halfAway_le ((a.value : ℚ) / k.toInt))
    (abs_nonneg (k.toInt : ℚ))
  rw [← hquot, ← abs_mul, sub_mul, div_mul_cancel₀ _ hkQ, abs_sub_comm] at hround
  have hle : 2 * |(p.value : ℚ) - a.value| ≤ |(k.toInt : ℚ)| := by
    rw [hprod, Int.cast_mul]
    linarith
  exact_mod_cast hle

/-- **Multiplying and dividing.** For canonical operands, `(a * b) / b` is `a` whenever the product
is representable, for all `a` exactly when `b` is a unit or more in size; `(a * k) / k` is `a` for
every integer `k` that is not zero whenever the product is representable; and `(a / k) * k` differs
from `a` by at most half a nano-unit for each of the parts. -/
theorem product_cancels :
    (∀ b : Decimal, b.Canonical → (b.Cancels ↔ kNano ≤ |b.value|)) ∧
    ∀ (a : Decimal) (k : Int64), a.Canonical → k ≠ 0 →
      (Representable (a.value * k.toInt) → ∃ p, a.mulInt k = some p ∧ p.divInt k = some a) ∧
      ∀ q p : Decimal, q.Canonical → p.Canonical →
        q.value = halfAway ((a.value : ℚ) / k.toInt) → p.value = q.value * k.toInt →
        a.divInt k = some q ∧ q.mulInt k = some p ∧ 2 * |p.value - a.value| ≤ |k.toInt| :=
  ⟨fun _ hb => ⟨unit_of_cancels hb, cancels_of_unit⟩,
    fun _ _ ha hk => ⟨divInt_mulInt ha hk, fun _ _ hq hp hquot hprod =>
      mulInt_divInt hk hq hp hquot hprod⟩⟩

/-- A half does not cancel, `-1` does; and a third of `0.000000010`, three times. -/
theorem product_cancels_half :
    ¬ Cancels ⟨0, 500000000⟩ ∧ Cancels ⟨-1, 0⟩ ∧
      (∃ p, mulInt ⟨0, 7⟩ 3 = some p ∧ p.divInt 3 = some ⟨0, 7⟩) ∧
      divInt ⟨0, 10⟩ 3 = some ⟨0, 3⟩ ∧ mulInt ⟨0, 3⟩ 3 = some ⟨0, 9⟩ := by
  have hlost := (product_cancels.2 ⟨0, 10⟩ 3 (by decide) (by decide)).2 ⟨0, 3⟩ ⟨0, 9⟩ (by decide)
    (by decide) (by rw [halfAway_div _ (by decide)]; decide) (by decide)
  exact ⟨fun h => absurd ((product_cancels.1 ⟨0, 500000000⟩ (by decide)).mp h) (by decide),
    (product_cancels.1 ⟨-1, 0⟩ (by decide)).mpr (by decide),
    (product_cancels.2 ⟨0, 7⟩ 3 (by decide) (by decide)).1 ⟨⟨0, 21⟩, by decide, by decide⟩,
    hlost.1, hlost.2.1⟩

end Decimal
end TInvest
