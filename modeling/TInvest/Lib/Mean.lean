import Mathlib

/-!
# Means of lists

The mean of a list of readings, how it moves with them, and how far from it a single reading can
lie: `mul_sq_sub_mean_le` is Samuelson's inequality for the sum of the squared deviations.
-/

namespace Lib

variable {K : Type*} [Field K]

/-- The mean. -/
def mean (xs : List K) : K := xs.sum / xs.length

lemma sum_map_add_const (xs : List K) (c : K) :
    (xs.map (· + c)).sum = xs.sum + xs.length * c := by
  rw [List.sum_map_add, List.map_id', List.map_const', List.sum_replicate, nsmul_eq_mul]

lemma mean_map_mul (xs : List K) (c : K) : mean (xs.map (c * ·)) = c * mean xs := by
  rw [mean, mean, List.length_map, List.sum_map_mul_left, List.map_id', mul_div_assoc]

section

variable [LinearOrder K] [IsStrictOrderedRing K]

lemma length_pos_cast {xs : List K} (h : xs ≠ []) : (0 : K) < xs.length :=
  Nat.cast_pos.mpr (List.length_pos_of_ne_nil h)

lemma mean_map_add {xs : List K} (h : xs ≠ []) (c : K) : mean (xs.map (· + c)) = mean xs + c := by
  have hpos := length_pos_cast h
  rw [mean, mean, List.length_map, sum_map_add_const]
  field_simp

lemma le_mean {xs : List K} {lo : K} (h : xs ≠ []) (hxs : ∀ x ∈ xs, lo ≤ x) : lo ≤ mean xs := by
  rw [mean, le_div_iff₀ (length_pos_cast h), mul_comm, ← nsmul_eq_mul]
  exact List.card_nsmul_le_sum xs lo hxs

lemma mean_le {xs : List K} {hi : K} (h : xs ≠ []) (hxs : ∀ x ∈ xs, x ≤ hi) : mean xs ≤ hi := by
  rw [mean, div_le_iff₀ (length_pos_cast h), mul_comm, ← nsmul_eq_mul]
  exact List.sum_le_card_nsmul xs hi hxs

/-! ## Deviations from the mean -/

/-- The deviations from the mean cancel. -/
lemma sum_map_sub_mean {xs : List K} (h : xs ≠ []) : (xs.map (· - mean xs)).sum = 0 := by
  have hpos := length_pos_cast h
  have hmap : xs.map (· - mean xs) = xs.map (· + -mean xs) := by
    apply List.map_congr_left
    intro x _
    exact sub_eq_add_neg x _
  rw [hmap, sum_map_add_const, mean]
  field_simp
  ring

lemma sum_sq_sub_nonneg (xs : List K) (m : K) : 0 ≤ (xs.map fun y => (y - m) ^ 2).sum := by
  apply List.sum_nonneg
  intro x hx
  obtain ⟨y, -, rfl⟩ := List.mem_map.mp hx
  exact sq_nonneg _

/-- The square of a sum, against the squares. -/
lemma sq_sum_le_length_mul (xs : List K) :
    xs.sum ^ 2 ≤ xs.length * (xs.map (· ^ 2)).sum := by
  have hcauchy := sq_sum_le_card_mul_sum_sq (s := Finset.univ)
    (f := fun i : Fin xs.length => xs[i.1])
  rwa [Fin.sum_univ_getElem, Fin.sum_univ_fun_getElem xs (· ^ 2), Finset.card_univ,
    Fintype.card_fin] at hcauchy

/-- **Samuelson's inequality.** -/
theorem mul_sq_sub_mean_le {xs : List K} {x : K} (hx : x ∈ xs) :
    xs.length * (x - mean xs) ^ 2 ≤
      (xs.length - 1) * (xs.map fun y => (y - mean xs) ^ 2).sum := by
  have hne : xs ≠ [] := List.ne_nil_of_mem hx
  -- the deviations of the other readings
  set others := (xs.erase x).map (· - mean xs) with hothers
  have hlen : (xs.length : K) = others.length + 1 := by
    rw [hothers, List.length_map, ← List.length_erase_add_one hx]
    push_cast
    ring
  have hsum : (x - mean xs) + others.sum = 0 :=
    (List.sum_map_erase (· - mean xs) hx).trans (sum_map_sub_mean hne)
  have hsq : (xs.map fun y => (y - mean xs) ^ 2).sum
      = (x - mean xs) ^ 2 + (others.map (· ^ 2)).sum := by
    rw [hothers, List.map_map]
    exact (List.sum_map_erase (fun y => (y - mean xs) ^ 2) hx).symm
  have hdev : (x - mean xs) ^ 2 = others.sum ^ 2 := by
    rw [eq_neg_of_add_eq_zero_left hsum, neg_sq]
  have hcauchy := sq_sum_le_length_mul others
  rw [← hdev] at hcauchy
  rw [hsq, hlen]
  linarith

end

end Lib
