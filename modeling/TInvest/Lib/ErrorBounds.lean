import TInvest.Lib.Rounding

/-!
# Error bounds of rounded arithmetic

`Near e x y` says that the computed `x` is within `e` of the exact `y`. Each operation on exact
numbers has one rule, which gives the bound of the result in terms of the exact operands and of
their bounds; a rounding adds its own half.
-/

namespace Lib
namespace ErrorBounds

open Rounding

variable {K : Type*} [Field K] [LinearOrder K] [IsStrictOrderedRing K]

/-- `x` is within `e` of `y`. -/
def Near (e x y : K) : Prop := |x - y| ≤ e

namespace Near

variable {e e' x x' y y' z : K}

lemma refl (x : K) : Near 0 x x := by
  rw [Near, sub_self, abs_zero]

lemma nonneg (h : Near e x y) : 0 ≤ e := (abs_nonneg _).trans h

lemma trans (h : Near e x y) (h' : Near e' y z) : Near (e + e') x z :=
  (abs_sub_le x y z).trans (add_le_add h h')

lemma abs_le (h : Near e x y) : |x| ≤ |y| + e := by
  have hsplit : |x| ≤ |x - y| + |y| := by
    simpa only [sub_add_cancel] using abs_add_le (x - y) y
  have hnear : |x - y| ≤ e := h
  linarith

lemma abs_ge (h : Near e x y) : |y| - e ≤ |x| := by
  have hsplit := abs_sub_abs_le_abs_sub y x
  rw [abs_sub_comm] at hsplit
  have hnear : |x - y| ≤ e := h
  linarith

omit [IsStrictOrderedRing K] in
lemma neg (h : Near e x y) : Near e (-x) (-y) := by
  rwa [Near, neg_sub_neg, abs_sub_comm]

lemma add (h : Near e x y) (h' : Near e' x' y') : Near (e + e') (x + x') (y + y') := by
  rw [Near, add_sub_add_comm]
  exact (abs_add_le _ _).trans (add_le_add h h')

lemma sub (h : Near e x y) (h' : Near e' x' y') : Near (e + e') (x - x') (y - y') := by
  rw [sub_eq_add_neg, sub_eq_add_neg]
  exact h.add h'.neg

/-- Each error is weighted with the size of the other factor. -/
lemma mul (h : Near e x y) (h' : Near e' x' y') :
    Near (|y| * e' + e * (|y'| + e')) (x * x') (y * y') := by
  have hsplit : x * x' - y * y' = y * (x' - y') + (x - y) * x' := by ring
  rw [Near, hsplit]
  refine (abs_add_le _ _).trans (add_le_add ?_ ?_)
  · rw [abs_mul]
    exact mul_le_mul_of_nonneg_left h' (abs_nonneg y)
  · rw [abs_mul]
    exact mul_le_mul h h'.abs_le (abs_nonneg x') h.nonneg

lemma mul_const (h : Near e x y) (c : K) : Near (e * |c|) (x * c) (y * c) := by
  rw [Near, ← sub_mul, abs_mul]
  exact mul_le_mul_of_nonneg_right h (abs_nonneg c)

lemma div_const (h : Near e x y) (c : K) : Near (e / |c|) (x / c) (y / c) := by
  rw [Near, ← sub_div, abs_div]
  exact div_le_div_of_nonneg_right h (abs_nonneg c)

/-- A divisor whose error is smaller than itself. -/
lemma div (h : Near e x y) (h' : Near e' x' y') (hlt : e' < |y'|) :
    Near ((e * |y'| + |y| * e') / ((|y'| - e') * |y'|)) (x / x') (y / y') := by
  have hge : |y'| - e' ≤ |x'| := h'.abs_ge
  have hpos' : 0 < |y'| := h'.nonneg.trans_lt hlt
  have hgap : 0 < |y'| - e' := sub_pos.mpr hlt
  have hy : y' ≠ 0 := abs_pos.mp hpos'
  have hx : x' ≠ 0 := abs_pos.mp (hgap.trans_le hge)
  -- the numerator over the common denominator is bounded as a product is
  have hsplit : x / x' - y / y' = ((x - y) * y' + y * (y' - x')) / (x' * y') := by
    field_simp
    ring
  have hnum : |(x - y) * y' + y * (y' - x')| ≤ e * |y'| + |y| * e' := by
    refine (abs_add_le _ _).trans (add_le_add ?_ ?_)
    · rw [abs_mul]
      exact mul_le_mul_of_nonneg_right h (abs_nonneg y')
    · rw [abs_mul, abs_sub_comm]
      exact mul_le_mul_of_nonneg_left h' (abs_nonneg y)
  have hden : (|y'| - e') * |y'| ≤ |x' * y'| := by
    rw [abs_mul]
    exact mul_le_mul_of_nonneg_right hge (abs_nonneg y')
  rw [Near, hsplit, abs_div]
  exact div_le_div₀ ((abs_nonneg _).trans hnum) hnum (mul_pos hgap hpos') hden

/-- Numbers that are further apart than their errors are computed in their order. -/
lemma lt (h : Near e x y) (h' : Near e' x' y') (hlt : y + e + e' < y') : x < x' := by
  have hx := abs_sub_le_iff.mp h
  have hx' := abs_sub_le_iff.mp h'
  linarith

variable [FloorRing K]

/-- Rounding to the nearest integer adds a half. -/
lemma round (h : Near e x y) : Near (e + 1 / 2) (halfAway x : K) y := by
  have hhalf : Near (1 / 2) (halfAway x : K) x := by
    rw [Near, abs_sub_comm]
    exact abs_sub_halfAway_le x
  rw [add_comm]
  exact hhalf.trans h

end Near

end ErrorBounds
end Lib
