import TInvest.Lib.Smoothing
import TInvest.Algo.Indicators

/-!
# Wilder's RSI

`Rsi` reads the changes of the price. Its state after any closes is a function of them
(`of_eq_state`): the sums of the warm-up, and from the change on that ends it Wilder's averages of
the gains and of the losses. A reflection of the prices exchanges gains and losses, so it
exchanges the averages, and the reading goes to its complement.
-/

namespace TInvest
namespace Algo
namespace Rsi

open Lib Lib.Smoothing

variable {K : Type*} [Field K]

/-! ## Wilder's averages -/

/-- The changes between the closes. -/
def changes (closes : List K) : List K :=
  closes.zipWith (fun prev close => close - prev) closes.tail

/-- Wilder's average: the mean of the first `period`, then a smoothing that keeps
`(period - 1) / period` of the average. -/
def wilder (period : ℕ) (xs : List K) : K :=
  (xs.drop period).foldl (fun avg x => (avg * (period - 1) + x) / period) (mean (xs.take period))

lemma wilder_of_length_eq {period : ℕ} {xs : List K} (h : xs.length = period) :
    wilder period xs = xs.sum / period := by
  rw [wilder, List.take_of_length_le h.le, List.drop_of_length_le h.le, List.foldl_nil, mean, h]

lemma wilder_concat {period : ℕ} {xs : List K} (x : K) (h : period ≤ xs.length) :
    wilder period (xs ++ [x]) = (wilder period xs * (period - 1) + x) / period := by
  rw [wilder, List.take_append_of_le_length h, List.drop_append_of_le_length h, List.foldl_concat]
  rfl

lemma changes_concat {closes : List K} (hne : closes ≠ []) (close : K) :
    changes (closes ++ [close]) = changes closes ++ [close - closes.getLastD 0] := by
  induction closes with
  | nil => exact absurd rfl hne
  | cons c closes ih =>
    cases closes with
    | nil => rfl
    | cons d closes => exact congrArg (List.cons (d - c)) (ih (List.cons_ne_nil _ _))

@[simp] lemma length_changes (closes : List K) : (changes closes).length = closes.length - 1 := by
  rw [changes, List.length_zipWith, List.length_tail]
  omega

/-- The changes of the reflected closes are the opposite ones. -/
lemma changes_map_sub (C : K) (closes : List K) :
    changes (closes.map (C - ·)) = (changes closes).map (- ·) := by
  induction closes with
  | nil => rfl
  | cons c closes ih =>
    cases closes with
    | nil => rfl
    | cons d closes =>
      have hhead : C - d - (C - c) = -(d - c) := by ring
      exact congrArg₂ List.cons hhead ih

section

variable [LinearOrder K] [IsStrictOrderedRing K]

lemma wilder_eq_seeded {period : ℕ} (hp : 1 ≤ period) (xs : List K) :
    wilder period xs = seeded (1 / (period : K)) period xs := by
  have hpos : (0 : K) < period := by exact_mod_cast hp
  have hstep : (fun avg x : K => (avg * (period - 1) + x) / period)
      = smooth (1 / (period : K)) := by
    funext avg x
    rw [smooth]
    field_simp
    ring
  rw [wilder, hstep, seeded]

lemma wilder_nonneg {period : ℕ} (hp : 1 ≤ period) {xs : List K} (h : period ≤ xs.length)
    (hxs : ∀ x ∈ xs, 0 ≤ x) : 0 ≤ wilder period xs := by
  have hcast : (1 : K) ≤ period := by exact_mod_cast hp
  have hle : (1 : K) / period ≤ 1 := by
    rw [div_le_one (by linarith)]
    exact hcast
  rw [wilder_eq_seeded hp]
  exact le_seeded (by positivity) hle hp xs h hxs

end

/-! ## The state after the closes -/

section

variable [LinearOrder K]

/-- `Rsi(period)` after the pushes. -/
def of (period : ℕ) (closes : List K) : Rsi K := closes.foldl push { period := period }

/-- The state after the changes, the last close being `prev`. -/
def state (period : ℕ) (prev : K) (deltas : List K) : Rsi K where
  period := period
  prev := prev
  hasPrev := true
  warmup := min period deltas.length
  gainSum := ((deltas.map gain).take period).sum
  lossSum := ((deltas.map loss).take period).sum
  avgGain := if period ≤ deltas.length then wilder period (deltas.map gain) else 0
  avgLoss := if period ≤ deltas.length then wilder period (deltas.map loss) else 0
  ready := decide (period ≤ deltas.length)

/-- What a change does after the warm-up. -/
lemma change_state_of_le {period : ℕ} (prev : K) {deltas : List K} (delta : K)
    (h : period ≤ deltas.length) :
    (state period prev deltas).change delta = state period prev (deltas ++ [delta]) := by
  have hnext : period ≤ (deltas ++ [delta]).length := by
    rw [List.length_append]
    omega
  have htake (f : K → K) : ((deltas ++ [delta]).map f).take period
      = (deltas.map f).take period := by
    rw [List.map_append, List.take_append_of_le_length (by rwa [List.length_map])]
  have havg (f : K → K) : wilder period ((deltas ++ [delta]).map f)
      = (wilder period (deltas.map f) * (period - 1) + f delta) / period := by
    rw [List.map_append, List.map_singleton, wilder_concat _ (by rwa [List.length_map])]
  rw [change, state, state]
  simp only [min_eq_left h, min_eq_left hnext, lt_irrefl, if_false, h, hnext, if_true, htake, havg]

/-- What it does during the warm-up: the change that ends it sets the averages. -/
lemma change_state_of_lt {period : ℕ} (prev : K) {deltas : List K} (delta : K)
    (h : deltas.length < period) :
    (state period prev deltas).change delta = state period prev (deltas ++ [delta]) := by
  have hlen : (deltas ++ [delta]).length = deltas.length + 1 := by simp
  have hsum (f : K → K) : (((deltas ++ [delta]).map f).take period).sum
      = ((deltas.map f).take period).sum + f delta := by
    rw [List.take_of_length_le (by rw [List.length_map]; omega),
      List.take_of_length_le (by rw [List.length_map]; omega), List.map_append, List.sum_append]
    simp
  rw [change, state, state, hsum, hsum]
  simp only [min_eq_right h.le, min_eq_right (hlen.le.trans h), h, if_true, not_le.mpr h, if_false]
  by_cases hend : deltas.length + 1 = period
  · have havg (f : K → K) : wilder period ((deltas ++ [delta]).map f)
        = (((deltas.map f).take period).sum + f delta) / period := by
      rw [wilder_of_length_eq (by rw [List.length_map, hlen, hend]), ← hsum,
        List.take_of_length_le (by rw [List.length_map, hlen, hend])]
    simp only [hend, if_true, hlen, havg, le_refl, decide_true]
  · have hpart : ¬ period ≤ deltas.length + 1 := by omega
    simp only [hend, if_false, hlen, hpart, decide_false]

lemma change_state (period : ℕ) (prev : K) (deltas : List K) (delta : K) :
    (state period prev deltas).change delta = state period prev (deltas ++ [delta]) := by
  rcases le_or_gt period deltas.length with h | h
  · exact change_state_of_le prev delta h
  · exact change_state_of_lt prev delta h

theorem of_eq_state {period : ℕ} (hp : 1 ≤ period) {closes : List K} (hne : closes ≠ []) :
    of period closes = state period (closes.getLastD 0) (changes closes) := by
  induction closes using List.reverseRecOn with
  | nil => exact absurd rfl hne
  | append_singleton closes close ih =>
    rw [of, List.foldl_concat, ← of]
    rcases eq_or_ne closes [] with hnil | hsome
    · -- the first close is only remembered
      have hnot : ¬ period ≤ 0 := by omega
      rw [hnil]
      simp [of, push, state, changes, hnot]
    · have hlast : (closes ++ [close]).getLastD 0 = close := by simp
      rw [ih hsome, push, changes_concat hsome, hlast]
      exact change_state period close _ _

/-- Before the first close there are no averages and no changes. -/
lemma of_avg {period : ℕ} (hp : 1 ≤ period) (closes : List K) :
    (of period closes).avgGain = (if period ≤ (changes closes).length
      then wilder period ((changes closes).map gain) else 0) ∧
    (of period closes).avgLoss = (if period ≤ (changes closes).length
      then wilder period ((changes closes).map loss) else 0) := by
  rcases eq_or_ne closes [] with hnil | hne
  · have hnot : ¬ period ≤ (changes closes).length := by
      rw [hnil, length_changes, List.length_nil]
      omega
    rw [if_neg hnot, if_neg hnot, hnil]
    exact ⟨rfl, rfl⟩
  · rw [of_eq_state hp hne]
    exact ⟨rfl, rfl⟩

lemma of_ready {period : ℕ} (hp : 1 ≤ period) (closes : List K) :
    (of period closes).ready = true ↔ period + 1 ≤ closes.length := by
  rcases eq_or_ne closes [] with hnil | hne
  · rw [hnil]
    simp [of]
  · have hlen := List.length_pos_of_ne_nil hne
    rw [of_eq_state hp hne, state, decide_eq_true_iff, length_changes]
    omega

end

/-! ## The reading -/

section

variable [LinearOrder K] [IsStrictOrderedRing K]

omit [IsStrictOrderedRing K] in
lemma gain_nonneg (delta : K) : 0 ≤ gain delta := by
  rw [gain]
  split
  · next h => exact h.le
  · exact le_refl 0

lemma gain_neg (delta : K) : gain (-delta) = loss delta := by
  simp only [gain, loss, neg_pos]

lemma loss_neg (delta : K) : loss (-delta) = gain delta := by
  rw [← gain_neg, neg_neg]

lemma loss_nonneg (delta : K) : 0 ≤ loss delta := by
  rw [← gain_neg]
  exact gain_nonneg _

lemma of_avg_nonneg {period : ℕ} (hp : 1 ≤ period) (closes : List K) :
    0 ≤ (of period closes).avgGain ∧ 0 ≤ (of period closes).avgLoss := by
  have hmap {f : K → K} (hf : ∀ delta, 0 ≤ f delta) :
      0 ≤ if period ≤ (changes closes).length then wilder period ((changes closes).map f)
        else 0 := by
    split
    · next h =>
      apply wilder_nonneg hp (by rwa [List.length_map])
      intro x hx
      obtain ⟨delta, -, rfl⟩ := List.mem_map.mp hx
      exact hf delta
    · exact le_refl 0
  rw [(of_avg hp closes).1, (of_avg hp closes).2]
  exact ⟨hmap gain_nonneg, hmap loss_nonneg⟩

/-- A reflection of the prices exchanges the averages. -/
lemma of_avg_reflected {period : ℕ} (hp : 1 ≤ period) (C : K) (closes : List K) :
    (of period (closes.map (C - ·))).avgGain = (of period closes).avgLoss ∧
    (of period (closes.map (C - ·))).avgLoss = (of period closes).avgGain := by
  have hgain : ((changes closes).map (- ·)).map gain = (changes closes).map loss := by
    rw [List.map_map]
    exact List.map_congr_left fun delta _ => gain_neg delta
  have hloss : ((changes closes).map (- ·)).map loss = (changes closes).map gain := by
    rw [List.map_map]
    exact List.map_congr_left fun delta _ => loss_neg delta
  obtain ⟨havg, havg'⟩ := of_avg hp closes
  obtain ⟨hreflected, hreflected'⟩ := of_avg hp (closes.map (C - ·))
  rw [changes_map_sub, List.length_map] at hreflected hreflected'
  rw [hreflected, hreflected', havg, havg', hgain, hloss]
  exact ⟨rfl, rfl⟩

/-- The quotient form of the reading, also when there are no losses. -/
lemma value_eq {r : Rsi K} (hgain : 0 ≤ r.avgGain) (hloss : 0 ≤ r.avgLoss)
    (hpos : 0 < r.avgGain + r.avgLoss) :
    r.value = 100 * r.avgGain / (r.avgGain + r.avgLoss) := by
  rw [value]
  split
  · next hzero =>
    rw [hzero, add_zero] at hpos ⊢
    field_simp
  · next hne =>
    have hloss' : 0 < r.avgLoss := lt_of_le_of_ne hloss (Ne.symm hne)
    have hne' : r.avgLoss + r.avgGain ≠ 0 := by linarith
    field_simp
    ring

lemma value_mem_Icc {r : Rsi K} (hgain : 0 ≤ r.avgGain) (hloss : 0 ≤ r.avgLoss) :
    0 ≤ r.value ∧ r.value ≤ 100 := by
  rcases hloss.eq_or_lt with hzero | hpos
  · rw [value, if_pos hzero.symm]
    exact ⟨by norm_num, le_refl 100⟩
  · have hsum : 0 < r.avgGain + r.avgLoss := by linarith
    rw [value_eq hgain hloss hsum]
    constructor
    · positivity
    · rw [div_le_iff₀ hsum]
      linarith

/-- **`Rsi` is Wilder's RSI**: ready after `period` changes, with Wilder's averages; a reading
between `0` and `100` that is the share of the gains; and the reading of the reflected prices is
its complement. -/
theorem rsi_wilder {period : ℕ} (hp : 1 ≤ period) (closes : List K) :
    ((of period closes).ready = true ↔ period + 1 ≤ closes.length) ∧
    ((of period closes).ready = true →
      (0 ≤ (of period closes).avgGain ∧ 0 ≤ (of period closes).avgLoss) ∧
      (of period closes).avgGain = wilder period ((changes closes).map gain) ∧
      (of period closes).avgLoss = wilder period ((changes closes).map loss)) ∧
    (0 ≤ (of period closes).value ∧ (of period closes).value ≤ 100) ∧
    (0 < (of period closes).avgGain + (of period closes).avgLoss →
      (of period closes).value = 100 * (of period closes).avgGain
        / ((of period closes).avgGain + (of period closes).avgLoss) ∧
      ∀ C, (of period (closes.map (C - ·))).value = 100 - (of period closes).value) := by
  obtain ⟨hgain, hloss⟩ := of_avg_nonneg hp closes
  refine ⟨of_ready hp closes, ?_, value_mem_Icc hgain hloss, ?_⟩
  · intro hready
    have hlen : period ≤ (changes closes).length := by
      rw [of_ready hp] at hready
      rw [length_changes]
      omega
    refine ⟨⟨hgain, hloss⟩, ?_, ?_⟩
    · rw [(of_avg hp closes).1, if_pos hlen]
    · rw [(of_avg hp closes).2, if_pos hlen]
  · intro hpos
    refine ⟨value_eq hgain hloss hpos, ?_⟩
    intro C
    obtain ⟨hgain', hloss'⟩ := of_avg_reflected hp C closes
    have hreflected : (of period (closes.map (C - ·))).value
        = 100 * (of period closes).avgLoss
          / ((of period closes).avgLoss + (of period closes).avgGain) := by
      rw [← hgain', ← hloss']
      apply value_eq
      · rwa [hgain']
      · rwa [hloss']
      · rw [hgain', hloss', add_comm]
        exact hpos
    have hne : (of period closes).avgLoss + (of period closes).avgGain ≠ 0 := by linarith
    rw [hreflected, value_eq hgain hloss hpos]
    field_simp
    ring

/-- Four closes, period 2: the reading is 80, and 20 for the reflected closes. -/
theorem rsi_wilder_four :
    (of 2 [(10 : ℚ), 14, 12, 14]).ready = true ∧ (of 2 [(10 : ℚ), 14, 12, 14]).value = 80 ∧
    (of 2 ([(10 : ℚ), 14, 12, 14].map (20 - ·))).value = 20 := by
  obtain ⟨hready, -, -, hvalue⟩ := rsi_wilder (K := ℚ) (by decide : 1 ≤ 2) [10, 14, 12, 14]
  obtain ⟨hquot, hreflected⟩ := hvalue (by decide +kernel)
  refine ⟨hready.mpr (by decide), ?_, ?_⟩
  · rw [hquot]
    decide +kernel
  · rw [hreflected, hquot]
    decide +kernel

end

end Rsi
end Algo
end TInvest
