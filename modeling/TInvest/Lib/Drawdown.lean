import Mathlib
import TInvest.Lib.Numerals

/-!
# The maximum drawdown of a sequence

The drawdown between two points of a sequence is the fall from the first to the second, in
percent of the first. The maximum over all pairs of points in order is computed in one pass: it
is enough to know the peak so far (`IsPeak.succ`) and to compare the fall from the peak to the
new point with the maximum so far (`IsMaxDrawdown.succ`).
-/

namespace Lib
namespace Drawdown

variable {K : Type*} {E : ℕ → K} {n : ℕ} {p d : K}

/-! ## Peaks -/

section

variable [LinearOrder K]

/-- `p` is the largest of `E 0, …, E n`. -/
def IsPeak (E : ℕ → K) (n : ℕ) (p : K) : Prop := IsGreatest {x | ∃ i ≤ n, x = E i} p

lemma isPeak_zero (E : ℕ → K) : IsPeak E 0 (E 0) := by
  refine ⟨⟨0, le_rfl, rfl⟩, ?_⟩
  intro x hx
  obtain ⟨i, hi, rfl⟩ := hx
  rw [Nat.le_zero.mp hi]

/-- The new peak is the old one or the new point. -/
lemma IsPeak.succ (h : IsPeak E n p) : IsPeak E (n + 1) (max p (E (n + 1))) := by
  constructor
  · obtain ⟨i, hi, hp⟩ := h.1
    rcases max_choice p (E (n + 1)) with hmax | hmax
    · exact ⟨i, by omega, by rw [hmax, hp]⟩
    · exact ⟨n + 1, le_rfl, hmax⟩
  · intro x hx
    obtain ⟨i, hi, rfl⟩ := hx
    rcases Nat.lt_succ_iff_lt_or_eq.mp (Nat.lt_succ_of_le hi) with hlt | heq
    · exact le_max_of_le_left (h.2 ⟨i, by omega, rfl⟩)
    · rw [heq]
      exact le_max_right _ _

end

/-! ## Falls -/

variable [Field K]

/-- The fall from `x` to `y`, in percent of `x`. -/
def fall (x y : K) : K := 100 * (x - y) / x

lemma fall_self {x : K} : fall x x = 0 := by
  rw [fall, sub_self, mul_zero, zero_div]

variable [LinearOrder K]

/-- `d` is the largest fall between two points of `E 0, …, E n` in order. -/
def IsMaxDrawdown (E : ℕ → K) (n : ℕ) (d : K) : Prop :=
  IsGreatest {x | ∃ i j, i ≤ j ∧ j ≤ n ∧ x = fall (E i) (E j)} d

lemma isMaxDrawdown_zero (E : ℕ → K) : IsMaxDrawdown E 0 0 := by
  refine ⟨⟨0, 0, le_rfl, le_rfl, fall_self.symm⟩, ?_⟩
  intro x hx
  obtain ⟨i, j, hij, hj, rfl⟩ := hx
  obtain rfl : j = 0 := by omega
  obtain rfl : i = 0 := by omega
  rw [fall_self]

lemma IsMaxDrawdown.nonneg (h : IsMaxDrawdown E n d) : 0 ≤ d := by
  have hself := h.2 ⟨0, 0, le_rfl, Nat.zero_le n, rfl⟩
  rwa [fall_self] at hself

variable [IsStrictOrderedRing K]

/-- The fall to a point is larger from a higher one. -/
lemma fall_le_fall {x x' y : K} (hx : 0 < x) (hle : x ≤ x') (hy : 0 ≤ y) :
    fall x y ≤ fall x' y := by
  have hx' : 0 < x' := hx.trans_le hle
  have hone : ∀ z : K, 0 < z → fall z y = 100 - 100 * (y / z) := by
    intro z hz
    rw [fall]
    field_simp
  have hdiv : y / x' ≤ y / x := div_le_div_of_nonneg_left hy hx hle
  rw [hone x hx, hone x' hx']
  linarith

/-- The largest fall to the new point starts at the peak. -/
lemma IsMaxDrawdown.succ (h : IsMaxDrawdown E n d) (hp : IsPeak E (n + 1) p)
    (hpos : ∀ i ≤ n + 1, 0 < E i) : IsMaxDrawdown E (n + 1) (max d (fall p (E (n + 1)))) := by
  constructor
  · rcases max_choice d (fall p (E (n + 1))) with hmax | hmax
    · obtain ⟨i, j, hij, hj, hd⟩ := h.1
      exact ⟨i, j, hij, by omega, by rw [hmax, hd]⟩
    · obtain ⟨i, hi, hpeak⟩ := hp.1
      exact ⟨i, n + 1, hi, le_rfl, by rw [hmax, hpeak]⟩
  · intro x hx
    obtain ⟨i, j, hij, hj, rfl⟩ := hx
    rcases Nat.lt_succ_iff_lt_or_eq.mp (Nat.lt_succ_of_le hj) with hlt | heq
    · exact le_max_of_le_left (h.2 ⟨i, j, hij, by omega, rfl⟩)
    · rw [heq] at hij ⊢
      have hle : E i ≤ p := hp.2 ⟨i, hij, rfl⟩
      exact le_max_of_le_right (fall_le_fall (hpos i hij) hle (hpos _ le_rfl).le)

/-! ## Its range -/

lemma IsMaxDrawdown.lt_hundred (h : IsMaxDrawdown E n d) (hpos : ∀ i ≤ n, 0 < E i) :
    d < 100 := by
  obtain ⟨i, j, hij, hj, rfl⟩ := h.1
  have hi := hpos i (by omega)
  rw [fall, div_lt_iff₀ hi]
  linarith [hpos j hj]

/-- There is no drawdown exactly when the sequence never falls. -/
lemma IsMaxDrawdown.eq_zero_iff (h : IsMaxDrawdown E n d) (hpos : ∀ i ≤ n, 0 < E i) :
    d = 0 ↔ ∀ i j, i ≤ j → j ≤ n → E i ≤ E j := by
  constructor
  · intro hd i j hij hj
    have hi := hpos i (by omega)
    have hle : fall (E i) (E j) ≤ d := h.2 ⟨i, j, hij, hj, rfl⟩
    rw [hd, fall, div_le_iff₀ hi] at hle
    linarith
  · intro hmono
    refine le_antisymm ?_ h.nonneg
    obtain ⟨i, j, hij, hj, rfl⟩ := h.1
    have hi := hpos i (by omega)
    rw [fall, div_le_iff₀ hi]
    linarith [hmono i j hij hj]

end Drawdown
end Lib
