import TInvest.Lib.Mean

/-!
# Exponential smoothing

A smoothed reading `x` takes the share `k` of the next value. `seeded k p` starts from the mean of
the first `p` values and smooths over the others; `induction_from` is the induction past that
switch. From it follow the closed form with its geometric weights, the bounds, and how the reading
moves when all the values are shifted or scaled.
-/

namespace Lib
namespace Smoothing

variable {K : Type*} [Field K]

/-- One step. -/
def smooth (k x v : K) : K := v * k + x * (1 - k)

/-- The smoothing seeded with the mean of the first `p` values. -/
def seeded (k : K) (p : ℕ) (vs : List K) : K := (vs.drop p).foldl (smooth k) (mean (vs.take p))

lemma seeded_of_length_eq (k : K) {p : ℕ} {vs : List K} (h : vs.length = p) :
    seeded k p vs = mean vs := by
  rw [seeded, List.take_of_length_le h.le, List.drop_of_length_le h.le]
  rfl

lemma seeded_concat (k : K) {p : ℕ} {vs : List K} (v : K) (h : p ≤ vs.length) :
    seeded k p (vs ++ [v]) = smooth k (seeded k p vs) v := by
  rw [seeded, List.take_append_of_le_length h, List.drop_append_of_le_length h,
    List.foldl_concat]
  rfl

omit [Field K] in
/-- **Induction on the values after the seed.** -/
theorem induction_from {p : ℕ} {P : List K → Prop} (hseed : ∀ vs, vs.length = p → P vs)
    (hstep : ∀ vs v, p ≤ vs.length → P vs → P (vs ++ [v])) : ∀ vs, p ≤ vs.length → P vs := by
  intro vs
  induction vs using List.reverseRecOn with
  | nil => exact fun h => hseed [] (Nat.le_zero.mp h).symm
  | append_singleton vs v ih =>
    intro h
    rcases h.lt_or_eq with hlt | heq
    · have hle : p ≤ vs.length := by
        rw [List.length_append, List.length_singleton] at hlt
        omega
      exact hstep vs v hle (ih hle)
    · exact hseed _ heq.symm

/-- The closed form: the weights fall geometrically with the age of the value. -/
theorem seeded_eq_sum (k : K) {p : ℕ} : ∀ vs : List K, p ≤ vs.length →
    seeded k p vs = (1 - k) ^ (vs.length - p) * mean (vs.take p) +
      ∑ i ∈ Finset.Icc (p + 1) vs.length, k * (1 - k) ^ (vs.length - i) * vs.getD (i - 1) 0 := by
  refine induction_from ?_ ?_
  · intro vs h
    rw [Finset.Icc_eq_empty (by omega), Finset.sum_empty, h, Nat.sub_self, pow_zero, one_mul,
      add_zero, List.take_of_length_le h.le, seeded_of_length_eq k h]
  · intro vs v hle ih
    have hlen : (vs ++ [v]).length = vs.length + 1 := by simp
    -- the older weights are scaled, the newest value has the weight of its own
    have hold : ∀ i ∈ Finset.Icc (p + 1) vs.length,
        k * (1 - k) ^ (vs.length + 1 - i) * (vs ++ [v]).getD (i - 1) 0
          = (1 - k) * (k * (1 - k) ^ (vs.length - i) * vs.getD (i - 1) 0) := by
      intro i hi
      have hi' := Finset.mem_Icc.mp hi
      rw [List.getD_append _ _ _ _ (by omega), Nat.succ_sub hi'.2, pow_succ]
      ring
    have hnew : (vs ++ [v]).getD (vs.length + 1 - 1) 0 = v := by simp
    rw [seeded_concat k v hle, smooth, ih, hlen, Finset.sum_Icc_succ_top (by omega),
      Finset.sum_congr rfl hold, ← Finset.mul_sum, hnew, List.take_append_of_le_length hle,
      Nat.succ_sub hle, pow_succ, Nat.sub_self, pow_zero]
    ring

lemma seeded_map_mul (k c : K) {p : ℕ} : ∀ vs : List K, p ≤ vs.length →
    seeded k p (vs.map (c * ·)) = c * seeded k p vs := by
  refine induction_from ?_ ?_
  · intro vs h
    rw [seeded_of_length_eq k (by rw [List.length_map, h]), seeded_of_length_eq k h, mean_map_mul]
  · intro vs v hle ih
    rw [List.map_append, List.map_singleton, seeded_concat k _ (by rwa [List.length_map]), ih,
      seeded_concat k v hle, smooth, smooth]
    ring

section

variable [LinearOrder K] [IsStrictOrderedRing K]

lemma seeded_map_add (k c : K) {p : ℕ} (hp : 1 ≤ p) : ∀ vs : List K, p ≤ vs.length →
    seeded k p (vs.map (· + c)) = seeded k p vs + c := by
  refine induction_from ?_ ?_
  · intro vs h
    have hne : vs ≠ [] := List.ne_nil_of_length_pos (by omega)
    rw [seeded_of_length_eq k (by rw [List.length_map, h]), seeded_of_length_eq k h,
      mean_map_add hne]
  · intro vs v hle ih
    rw [List.map_append, List.map_singleton, seeded_concat k _ (by rwa [List.length_map]), ih,
      seeded_concat k v hle, smooth, smooth]
    ring

/-- A smoothed reading keeps to the bounds of the values. -/
lemma le_seeded {k lo : K} (h0 : 0 ≤ k) (h1 : k ≤ 1) {p : ℕ} (hp : 1 ≤ p) :
    ∀ vs : List K, p ≤ vs.length → (∀ v ∈ vs, lo ≤ v) → lo ≤ seeded k p vs := by
  refine induction_from ?_ ?_
  · intro vs h hvs
    rw [seeded_of_length_eq k h]
    exact le_mean (List.ne_nil_of_length_pos (by omega)) hvs
  · intro vs v hle ih hvs
    have hv : lo ≤ v := hvs v List.mem_concat_self
    have hx : lo ≤ seeded k p vs := ih fun w hw => hvs w (List.mem_append_left _ hw)
    have hk : 0 ≤ 1 - k := sub_nonneg.mpr h1
    rw [seeded_concat k v hle, smooth]
    calc lo = lo * k + lo * (1 - k) := by ring
      _ ≤ v * k + seeded k p vs * (1 - k) := by gcongr

lemma seeded_le {k hi : K} (h0 : 0 ≤ k) (h1 : k ≤ 1) {p : ℕ} (hp : 1 ≤ p) :
    ∀ vs : List K, p ≤ vs.length → (∀ v ∈ vs, v ≤ hi) → seeded k p vs ≤ hi := by
  refine induction_from ?_ ?_
  · intro vs h hvs
    rw [seeded_of_length_eq k h]
    exact mean_le (List.ne_nil_of_length_pos (by omega)) hvs
  · intro vs v hle ih hvs
    have hv : v ≤ hi := hvs v List.mem_concat_self
    have hx : seeded k p vs ≤ hi := ih fun w hw => hvs w (List.mem_append_left _ hw)
    have hk : 0 ≤ 1 - k := sub_nonneg.mpr h1
    rw [seeded_concat k v hle, smooth]
    calc v * k + seeded k p vs * (1 - k) ≤ hi * k + hi * (1 - k) := by gcongr
      _ = hi := by ring

end

end Smoothing
end Lib
