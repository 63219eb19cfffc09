import Mathlib

/-!
# Fixed-width signed arithmetic with undefined overflow

Signed integer operations of a language in which overflow is undefined: the
mathematical result when it is a value of the type, nothing otherwise. Conversions
between widths do not overflow, they wrap (`Int64.ofInt`, `Int32.ofInt`).

* `Fits w x` — `x` is a value of the signed `w`-bit type;
* `Checked` — a computation that overflow makes undefined, `checked w` one of its steps;
* the two facts about truncating division and about wrapping that turn goals over
  fixed-width values into linear arithmetic.
-/

namespace Lib
namespace Signed

/-- `x` is a value of the signed `w`-bit integer type. -/
def Fits (w : ℕ) (x : ℤ) : Prop := -2 ^ (w - 1) ≤ x ∧ x < 2 ^ (w - 1)

instance (w : ℕ) (x : ℤ) : Decidable (Fits w x) := inferInstanceAs (Decidable (_ ∧ _))

/-- The result of a computation whose steps may overflow: `none` is the undefined
behaviour of a signed overflow. -/
abbrev Checked (α : Type) := Option α

/-- One signed operation of width `w`, given its mathematical result. -/
def checked (w : ℕ) (x : ℤ) : Checked ℤ := if Fits w x then some x else none

/-- A checked operation whose result is stored in a 64-bit object. -/
def checked64 (x : ℤ) : Checked Int64 := if Fits 64 x then some (Int64.ofInt x) else none

/-- A checked operation whose result is stored in a 32-bit object. -/
def checked32 (x : ℤ) : Checked Int32 := if Fits 32 x then some (Int32.ofInt x) else none

lemma checked_of_fits {w : ℕ} {x : ℤ} (h : Fits w x) : checked w x = some x := if_pos h

lemma checked64_of_fits {x : ℤ} (h : Fits 64 x) : checked64 x = some (Int64.ofInt x) := if_pos h

lemma checked32_of_fits {x : ℤ} (h : Fits 32 x) : checked32 x = some (Int32.ofInt x) := if_pos h

/-! ## Wrapping conversions -/

/-- A conversion to 64 bits keeps a value of the type. -/
lemma toInt_ofInt64 {x : ℤ} (h : Fits 64 x) : (Int64.ofInt x).toInt = x :=
  Int64.toInt_ofInt_of_le h.1 h.2

/-- A conversion to 32 bits keeps a value of the type. -/
lemma toInt_ofInt32 {x : ℤ} (h : Fits 32 x) : (Int32.ofInt x).toInt = x :=
  Int32.toInt_ofInt_of_le h.1 h.2

/-- A conversion to 64 bits changes its operand by a multiple of `2^64`. -/
lemma toInt_ofInt64_wraps (x : ℤ) : ∃ n : ℤ, (Int64.ofInt x).toInt = x + n * 2 ^ 64 := by
  refine ⟨-((x + 2 ^ 63) / 2 ^ 64), ?_⟩
  rw [Int64.toInt_ofInt, Int.bmod_def]
  simp only [Int64.size]
  split <;> omega

lemma fits64_toInt (x : Int64) : Fits 64 x.toInt := ⟨x.le_toInt, x.toInt_lt⟩

lemma fits32_toInt (x : Int32) : Fits 32 x.toInt := ⟨x.le_toInt, x.toInt_lt⟩

/-! ## Truncating division -/

/-- Truncating division by a positive divisor: quotient and remainder recompose the
dividend, and the remainder takes the dividend's sign. -/
lemma tdiv_tmod_spec (t : ℤ) {k : ℤ} (hk : 0 < k) :
    t.tdiv k * k + t.tmod k = t ∧ t.tmod k < k ∧ -k < t.tmod k ∧
      (0 ≤ t → 0 ≤ t.tmod k) ∧ (t ≤ 0 → t.tmod k ≤ 0) := by
  refine ⟨Int.tdiv_mul_add_tmod t k, Int.tmod_lt_of_pos t hk, Int.lt_tmod_of_pos t hk,
    Int.tmod_nonneg k, ?_⟩
  intro ht
  -- the remainder of the opposite dividend is the opposite remainder
  have h := Int.tmod_nonneg k (neg_nonneg.mpr ht)
  rw [Int.neg_tmod] at h
  linarith

end Signed
end Lib
