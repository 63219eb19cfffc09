import Mathlib
import TInvest.Lib.Numerals

/-!
# Rounding half away from zero, and truncation

* `halfAway` — the nearest integer, ties away from zero, over any ordered field with a floor;
* `halfAway_div` — on a quotient of integers it is a truncating division, after half of the
  divisor was added to the magnitude of the dividend. The half may be truncated as well: an
  odd divisor has no ties;
* `abs_sub_halfAway_le` — which bounds the quotient by the rounded one;
* `halfAway_eq`, `halfAway_mono` — an integer nearer than a half is found, and the order is kept;
* `towardZero` — the integer part, which on a quotient of integers is the truncating division.
-/

namespace Lib
namespace Rounding

variable {K : Type*} [Field K] [LinearOrder K] [IsStrictOrderedRing K] [FloorRing K]

/-- The nearest integer, ties away from zero. -/
def halfAway (q : K) : ℤ := if 0 ≤ q then ⌊q + 1 / 2⌋ else -⌊-q + 1 / 2⌋

lemma halfAway_neg (q : K) : halfAway (-q) = -halfAway q := by
  unfold halfAway
  rcases lt_trichotomy q 0 with h | h | h
  · rw [if_pos (by linarith), if_neg (by linarith), neg_neg]
  · have hfloor : ⌊(0 : K) + 1 / 2⌋ = 0 := by
      rw [Int.floor_eq_zero_iff]
      exact ⟨by norm_num, by norm_num⟩
    rw [h, neg_zero, if_pos le_rfl, hfloor, if_pos le_rfl, neg_zero]
  · rw [if_neg (by linarith), if_pos (by linarith), neg_neg]

/-- It is one of the nearest integers. -/
lemma abs_sub_halfAway_le (q : K) : |q - halfAway q| ≤ 1 / 2 := by
  have hnear : ∀ x : K, |x - ⌊x + 1 / 2⌋| ≤ 1 / 2 := by
    intro x
    have hle := Int.floor_le (x + 1 / 2)
    have hlt := Int.lt_floor_add_one (x + 1 / 2)
    rw [abs_le]
    constructor <;> linarith
  unfold halfAway
  split
  · exact hnear q
  · have h := hnear (-q)
    rw [abs_sub_comm] at h
    push_cast
    rwa [sub_neg_eq_add, add_comm, ← sub_neg_eq_add]

/-- A magnitude: half of the divisor, truncated, is added before the division. -/
lemma halfAway_div_of_nonneg {n d : ℤ} (hn : 0 ≤ n) (hd : 0 < d) :
    halfAway ((n : K) / d) = (n + d.tdiv 2).tdiv d := by
  have hd' : (0 : K) < d := by exact_mod_cast hd
  have hn' : (0 : K) ≤ n := by exact_mod_cast hn
  have hhalf : d.tdiv 2 = d / 2 := Int.tdiv_eq_ediv_of_nonneg hd.le
  have hquot : (n + d.tdiv 2).tdiv d = (n + d / 2) / d := by
    rw [hhalf, Int.tdiv_eq_ediv_of_nonneg (by omega)]
  -- the quotient `z` is the integer with `2 z d ≤ 2 n + d < 2 (z + 1) d`
  have hlow : (n + d / 2) / d * d ≤ n + d / 2 := Int.ediv_mul_le _ hd.ne'
  have hhigh : n + d / 2 < ((n + d / 2) / d + 1) * d := Int.lt_ediv_add_one_mul_self _ hd
  generalize hz : (n + d / 2) / d = z at hlow hhigh
  have hlow' : 2 * (z * d) ≤ 2 * n + d := by omega
  have hhigh' : 2 * n + d < 2 * ((z + 1) * d) := by omega
  rw [hquot, hz, halfAway, if_pos (by positivity), Int.floor_eq_iff]
  have hlowK : 2 * ((z : K) * d) ≤ 2 * n + d := by exact_mod_cast hlow'
  have hhighK : 2 * (n : K) + d < 2 * ((z + 1) * d) := by exact_mod_cast hhigh'
  have hsplit : (n : K) / d + 1 / 2 = (2 * n + d) / (2 * d) := by
    field_simp
  rw [hsplit, le_div_iff₀ (by linarith), div_lt_iff₀ (by linarith)]
  constructor <;> linarith

/-- **Rounding a quotient of integers.** The half is added when the signs agree and
subtracted when they differ, which moves the dividend away from zero. -/
lemma halfAway_div (n : ℤ) {d : ℤ} (hd : d ≠ 0) :
    halfAway ((n : K) / d) =
      if decide (0 ≤ n) = decide (0 ≤ d) then (n + d.tdiv 2).tdiv d
      else (n - d.tdiv 2).tdiv d := by
  rcases lt_or_gt_of_ne hd with hneg | hpos
  · have hpos' : 0 < -d := by omega
    have hd0 : ¬ 0 ≤ d := by omega
    rcases le_or_gt 0 n with hn | hn
    · -- `n / d = -(n / -d)`
      have h := halfAway_div_of_nonneg (K := K) hn hpos'
      rw [Int.neg_tdiv, ← sub_eq_add_neg, Int.tdiv_neg] at h
      rw [if_neg (by simp [hn, hd0]), ← neg_inj, ← h, ← halfAway_neg]
      push_cast
      rw [div_neg]
    · -- `n / d = -n / -d`
      have h := halfAway_div_of_nonneg (K := K) (n := -n) (by omega) hpos'
      rw [Int.neg_tdiv, ← neg_add, Int.neg_tdiv_neg] at h
      have hn0 : ¬ 0 ≤ n := by omega
      rw [if_pos (by simp [hn0, hd0]), ← h]
      push_cast
      rw [neg_div_neg_eq]
  · have hd0 : 0 ≤ d := hpos.le
    rcases le_or_gt 0 n with hn | hn
    · rw [if_pos (by simp [hn, hd0])]
      exact halfAway_div_of_nonneg hn hpos
    · -- `n / d = -(-n / d)`
      have h := halfAway_div_of_nonneg (K := K) (n := -n) (by omega) hpos
      have hflip : -n + d.tdiv 2 = -(n - d.tdiv 2) := by ring
      rw [hflip, Int.neg_tdiv] at h
      have hn0 : ¬ 0 ≤ n := by omega
      rw [if_neg (by simp [hn0, hd0]), ← neg_inj, ← h, ← halfAway_neg]
      push_cast
      rw [neg_div]

lemma halfAway_intCast (z : ℤ) : halfAway (z : K) = z := by
  have hhalf : (1 : ℤ).tdiv 2 = 0 := by decide
  have h := halfAway_div (K := K) z one_ne_zero
  rwa [Int.cast_one, div_one, hhalf, add_zero, sub_zero, ite_self, Int.tdiv_one] at h

/-- An integer that is nearer than a half is the nearest one. -/
lemma halfAway_eq {q : K} {z : ℤ} (h : |q - z| < 1 / 2) : halfAway q = z := by
  have hnear := abs_lt.mp h
  have hround := abs_le.mp (abs_sub_halfAway_le q)
  have hlow : (z : K) - 1 < halfAway q := by linarith
  have hhigh : (halfAway q : K) < z + 1 := by linarith
  have hlow' : z - 1 < halfAway q := by exact_mod_cast hlow
  have hhigh' : halfAway q < z + 1 := by exact_mod_cast hhigh
  omega

lemma halfAway_mono {q r : K} (h : q ≤ r) : halfAway q ≤ halfAway r := by
  unfold halfAway
  rcases le_or_gt 0 q with hq | hq
  · rw [if_pos hq, if_pos (hq.trans h)]
    exact Int.floor_mono (by linarith)
  · rw [if_neg hq.not_ge]
    have hq' : 0 ≤ ⌊-q + 1 / 2⌋ := Int.floor_nonneg.mpr (by linarith)
    rcases le_or_gt 0 r with hr | hr
    · rw [if_pos hr]
      have hr' : 0 ≤ ⌊r + 1 / 2⌋ := Int.floor_nonneg.mpr (by linarith)
      omega
    · rw [if_neg hr.not_ge]
      exact neg_le_neg (Int.floor_mono (by linarith))

/-! ## Truncation -/

/-- The integer part: the nearest integer not further from zero. -/
def towardZero (q : K) : ℤ := if 0 ≤ q then ⌊q⌋ else ⌈q⌉

lemma towardZero_neg (q : K) : towardZero (-q) = -towardZero q := by
  unfold towardZero
  rcases lt_trichotomy q 0 with h | h | h
  · rw [if_pos (by linarith), if_neg (by linarith), Int.floor_neg]
  · rw [h, neg_zero, if_pos le_rfl, Int.floor_zero, neg_zero]
  · rw [if_neg (by linarith), if_pos h.le, Int.ceil_neg]

/-- **Truncating a quotient of natural numbers.** -/
lemma towardZero_natCast_div (n d : ℕ) : towardZero ((n : K) / d) = ((n / d : ℕ) : ℤ) := by
  have hnonneg : (0 : K) ≤ (n : K) / d := by positivity
  rw [towardZero, if_pos hnonneg, ← Nat.floor_div_eq_div (K := K),
    Int.natCast_floor_eq_floor hnonneg]

end Rounding
end Lib
