import TInvest.Lib.Mealy
import TInvest.Lib.SlidingWindow
import TInvest.Lib.Smoothing
import TInvest.Algo.Indicators

/-!
# The moving averages as batch quantities

For `Sma`, `Ema` and `Macd` the state after any pushes, `of`, is written out as a function of the
pushed values: `state` is that function, and `of_eq_state` says that the pushes lead to it. The
averages are then the mean of the last values, the seeded smoothing of `Lib.Smoothing`, and a
smoothing of the differences of two of them.
-/

namespace TInvest
namespace Algo

open Lib Lib.Mealy Lib.SlidingWindow Lib.Smoothing

variable {K : Type*} [Field K]

/-! ## Simple averages -/

namespace Sma

/-- `Sma(period)` after the pushes. -/
def of (period : ℕ) (vs : List K) : Sma K := vs.foldl push { period := period }

/-- The state after the values; the running sum is the sum of the window. -/
def state (period : ℕ) (vs : List K) : Sma K where
  period := period
  window := vs.rtake period
  sum := (vs.rtake period).sum

lemma push_state (period : ℕ) (vs : List K) (v : K) :
    (state period vs).push v = state period (vs ++ [v]) := by
  have hwindow := push_rtake period vs v
  have hsum := sum_push period (vs.rtake period) v
  rw [hwindow] at hsum
  rw [state, state, hsum, ← hwindow, SlidingWindow.push, Sma.push]
  split <;> rfl

theorem of_eq_state (period : ℕ) (vs : List K) : of period vs = state period vs := by
  have hfresh : ({ period := period } : Sma K) = state period [] := by simp [state]
  exact foldl_eq_of_step (state period) hfresh (push_state period) vs

lemma state_ready (period : ℕ) (vs : List K) :
    (state period vs).ready = decide (period ≤ vs.length) := by
  rw [ready, state, Bool.eq_iff_iff, beq_iff_eq, decide_eq_true_iff, length_rtake_eq_iff]

lemma state_value (period : ℕ) (vs : List K) :
    (state period vs).value = mean (vs.rtake period) := rfl

lemma of_window (period : ℕ) (vs : List K) : (of period vs).window = vs.rtake period := by
  rw [of_eq_state, state]

lemma of_ready (period : ℕ) (vs : List K) :
    (of period vs).ready = decide (period ≤ vs.length) := by
  rw [of_eq_state, state_ready]

lemma of_value (period : ℕ) (vs : List K) : (of period vs).value = mean (vs.rtake period) := by
  rw [of_eq_state, state_value]

end Sma

/-! ## Exponential averages -/

namespace Ema

/-- `Ema(period)` after the pushes. -/
def of (period : ℕ) (vs : List K) : Ema K := vs.foldl push (make period)

lemma of_concat (period : ℕ) (vs : List K) (v : K) :
    of period (vs ++ [v]) = (of period vs).push v :=
  List.foldl_concat ..

/-- The reading over the values. -/
def reading (period : ℕ) (vs : List K) : K := seeded (2 / (period + 1)) period vs

/-- The state after the values; the seed stops when the average is ready. -/
def state (period : ℕ) (vs : List K) : Ema K where
  period := period
  k := 2 / (period + 1)
  seed := .state period (vs.take period)
  ready := decide (period ≤ vs.length)
  value := if period ≤ vs.length then reading period vs else 0

/-- A push after the seed. -/
lemma push_state_of_le {period : ℕ} {vs : List K} (v : K) (h : period ≤ vs.length) :
    (state period vs).push v = state period (vs ++ [v]) := by
  have hnext : period ≤ (vs ++ [v]).length := by
    rw [List.length_append]
    omega
  have hstep := seeded_concat (2 / ((period : K) + 1)) v h
  rw [push, state, state, List.take_append_of_le_length h]
  simp only [h, hnext, decide_true, if_true, reading, hstep, smooth]

/-- A push before it: the value that fills the window makes the average ready. -/
lemma push_state_of_lt {period : ℕ} {vs : List K} (v : K) (h : vs.length < period) :
    (state period vs).push v = state period (vs ++ [v]) := by
  have hlen : (vs ++ [v]).length = vs.length + 1 := by simp
  have htake : vs.take period = vs := List.take_of_length_le h.le
  have htake' : (vs ++ [v]).take period = vs ++ [v] := List.take_of_length_le (by omega)
  have hnot : ¬ period ≤ vs.length := not_le.mpr h
  rw [push, state, state, htake, htake']
  simp only [hnot, decide_false, Bool.false_eq_true, if_false, Sma.push_state, Sma.state_ready,
    Sma.state_value, decide_eq_true_eq]
  by_cases hfull : period ≤ (vs ++ [v]).length
  · have heq : (vs ++ [v]).length = period := by omega
    have hreading : reading period (vs ++ [v]) = mean ((vs ++ [v]).rtake period) := by
      rw [reading, seeded_of_length_eq _ heq, rtake_of_length_le heq.le]
    simp only [hfull, if_true, decide_true, hreading]
  · simp only [hfull, if_false, decide_false]

theorem of_eq_state {period : ℕ} (hp : 1 ≤ period) (vs : List K) :
    of period vs = state period vs := by
  have hfresh : make period = state period ([] : List K) := by
    have hnot : ¬ period ≤ ([] : List K).length := by
      rw [List.length_nil]
      omega
    rw [state, List.take_nil, decide_eq_false hnot, if_neg hnot, ← Sma.of_eq_state]
    rfl
  refine foldl_eq_of_step (state period) hfresh ?_ vs
  intro vs v
  rcases le_or_gt period vs.length with h | h
  · exact push_state_of_le v h
  · exact push_state_of_lt v h

lemma of_ready {period : ℕ} (hp : 1 ≤ period) (vs : List K) :
    (of period vs).ready = decide (period ≤ vs.length) := by
  rw [of_eq_state hp, state]

lemma of_value {period : ℕ} (hp : 1 ≤ period) {vs : List K} (h : period ≤ vs.length) :
    (of period vs).value = reading period vs := by
  rw [of_eq_state hp, state]
  exact if_pos h

lemma of_value_of_lt {period : ℕ} (hp : 1 ≤ period) {vs : List K} (h : vs.length < period) :
    (of period vs).value = 0 := by
  rw [of_eq_state hp, state]
  exact if_neg (not_le.mpr h)

/-- The batch definition, with the weight of each value written out. -/
def batch (period : ℕ) (vs : List K) : K :=
  let k : K := 2 / (period + 1)
  (1 - k) ^ (vs.length - period) * mean (vs.take period) +
    ∑ i ∈ Finset.Icc (period + 1) vs.length, k * (1 - k) ^ (vs.length - i) * vs.getD (i - 1) 0

lemma of_value_eq_batch {period : ℕ} (hp : 1 ≤ period) {vs : List K} (h : period ≤ vs.length) :
    (of period vs).value = batch period vs := by
  rw [of_value hp h, reading, seeded_eq_sum _ vs h]
  rfl

lemma of_value_map_mul {period : ℕ} (hp : 1 ≤ period) (c : K) (vs : List K) :
    (of period (vs.map (c * ·))).value = c * (of period vs).value := by
  have hlen : (vs.map (c * ·)).length = vs.length := List.length_map _
  rcases le_or_gt period vs.length with h | h
  · rw [of_value hp (by rwa [hlen]), of_value hp h]
    exact seeded_map_mul _ c vs h
  · rw [of_value_of_lt hp (by rwa [hlen]), of_value_of_lt hp h, mul_zero]

section

variable [LinearOrder K] [IsStrictOrderedRing K]

lemma of_value_map_add {period : ℕ} (hp : 1 ≤ period) (c : K) {vs : List K}
    (h : period ≤ vs.length) :
    (of period (vs.map (· + c))).value = (of period vs).value + c := by
  rw [of_value hp (by rwa [List.length_map]), of_value hp h]
  exact seeded_map_add _ c hp vs h

lemma weight_nonneg (period : ℕ) : (0 : K) ≤ 2 / (period + 1) := by positivity

lemma weight_le_one {period : ℕ} (hp : 1 ≤ period) : (2 : K) / (period + 1) ≤ 1 := by
  have hcast : (1 : K) ≤ period := by exact_mod_cast hp
  rw [div_le_one (by linarith)]
  linarith

/-- The average lies between the smallest and the largest value. -/
lemma of_value_mem_Icc {period : ℕ} (hp : 1 ≤ period) {vs : List K} (h : period ≤ vs.length)
    {lo hi : K} (hlo : vs.min? = some lo) (hhi : vs.max? = some hi) :
    lo ≤ (of period vs).value ∧ (of period vs).value ≤ hi := by
  have hmin := (List.min?_eq_some_iff.mp hlo).2
  have hmax := (List.max?_eq_some_iff.mp hhi).2
  rw [of_value hp h]
  exact ⟨le_seeded (weight_nonneg period) (weight_le_one hp) hp vs h hmin,
    seeded_le (weight_nonneg period) (weight_le_one hp) hp vs h hmax⟩

end

end Ema

/-! ## MACD -/

namespace Macd

/-- `Macd(fast, slow, signal)` after the pushes. -/
def of (fast slow signal : ℕ) (vs : List K) : Macd K := vs.foldl push (make fast slow signal)

/-- The differences of the two averages, from the push on that makes both of them ready. -/
def differences (fast slow : ℕ) (vs : List K) : List K :=
  (List.range' (max fast slow) (vs.length + 1 - max fast slow)).map fun n =>
    (Ema.of fast (vs.take n)).value - (Ema.of slow (vs.take n)).value

@[simp] lemma length_differences (fast slow : ℕ) (vs : List K) :
    (differences fast slow vs).length = vs.length + 1 - max fast slow := by
  simp [differences]

lemma differences_concat (fast slow : ℕ) (vs : List K) (v : K) :
    differences fast slow (vs ++ [v]) =
      if max fast slow ≤ (vs ++ [v]).length then
        differences fast slow vs ++
          [(Ema.of fast (vs ++ [v])).value - (Ema.of slow (vs ++ [v])).value]
      else differences fast slow vs := by
  have hlen : (vs ++ [v]).length = vs.length + 1 := by simp
  split
  · next h =>
    have hcount : (vs ++ [v]).length + 1 - max fast slow = vs.length + 1 - max fast slow + 1 := by
      omega
    have hlast : max fast slow + (vs.length + 1 - max fast slow) = (vs ++ [v]).length := by omega
    rw [differences, hcount, List.range'_1_concat, List.map_append, List.map_singleton, hlast,
      List.take_length, differences]
    congr 1
    apply List.map_congr_left
    intro n hn
    have hle : n ≤ vs.length := by
      have hmem := List.mem_range'_1.mp hn
      omega
    rw [List.take_append_of_le_length hle]
  · next h =>
    have hnow : vs.length + 1 - max fast slow = 0 := by omega
    have hnext : (vs ++ [v]).length + 1 - max fast slow = 0 := by omega
    rw [differences, differences, hnow, hnext]
    rfl

/-- The state after the values. -/
def state (fast slow signal : ℕ) (vs : List K) : Macd K where
  fast := .of fast vs
  slow := .of slow vs
  signalLine := .of signal (differences fast slow vs)

/-- A push adds a difference to the signal line once both averages are ready. -/
lemma push_state {fast slow : ℕ} (hf : 1 ≤ fast) (hs : 1 ≤ slow) (signal : ℕ) (vs : List K)
    (v : K) : (state fast slow signal vs).push v = state fast slow signal (vs ++ [v]) := by
  rw [push, state, state]
  simp only [← Ema.of_concat]
  rw [differences_concat, Ema.of_ready hf, Ema.of_ready hs]
  congr 1
  by_cases h : max fast slow ≤ (vs ++ [v]).length
  · have hboth := max_le_iff.mp h
    rw [if_pos h, Ema.of_concat]
    simp only [hboth.1, hboth.2, decide_true, Bool.and_self, if_true]
  · have hnot : ¬ (fast ≤ (vs ++ [v]).length ∧ slow ≤ (vs ++ [v]).length) := by
      rwa [← max_le_iff]
    rw [if_neg h, if_neg]
    simpa using hnot

theorem of_eq_state {fast slow : ℕ} (hf : 1 ≤ fast) (hs : 1 ≤ slow) (signal : ℕ) (vs : List K) :
    of fast slow signal vs = state fast slow signal vs := by
  have hnil : differences fast slow ([] : List K) = [] := by
    apply List.eq_nil_of_length_eq_zero
    rw [length_differences, List.length_nil]
    omega
  have hfresh : make fast slow signal = state fast slow signal ([] : List K) := by
    rw [state, hnil]
    rfl
  exact foldl_eq_of_step (state fast slow signal) hfresh (push_state hf hs signal) vs

lemma of_ready {fast slow signal : ℕ} (hf : 1 ≤ fast) (hs : 1 ≤ slow) (hsig : 1 ≤ signal)
    (vs : List K) :
    (of fast slow signal vs).ready = true ↔ max fast slow + signal - 1 ≤ vs.length := by
  rw [of_eq_state hf hs, state, ready, Ema.of_ready hsig, length_differences, decide_eq_true_iff]
  omega

lemma differences_map_mul {fast slow : ℕ} (hf : 1 ≤ fast) (hs : 1 ≤ slow) (c : K) (vs : List K) :
    differences fast slow (vs.map (c * ·)) = (differences fast slow vs).map (c * ·) := by
  rw [differences, differences, List.length_map, List.map_map]
  apply List.map_congr_left
  intro n _
  rw [← List.map_take, Ema.of_value_map_mul hf, Ema.of_value_map_mul hs, ← mul_sub]
  rfl

lemma differences_map_add [LinearOrder K] [IsStrictOrderedRing K] {fast slow : ℕ} (hf : 1 ≤ fast)
    (hs : 1 ≤ slow) (c : K) (vs : List K) :
    differences fast slow (vs.map (· + c)) = differences fast slow vs := by
  rw [differences, differences, List.length_map]
  apply List.map_congr_left
  intro n hn
  -- both averages have their readings at these pushes
  have hmem := List.mem_range'_1.mp hn
  have hlen : (vs.take n).length = n := List.length_take_of_le (by omega)
  have hboth : fast ≤ (vs.take n).length ∧ slow ≤ (vs.take n).length := by omega
  rw [← List.map_take, Ema.of_value_map_add hf c hboth.1, Ema.of_value_map_add hs c hboth.2]
  ring

lemma of_signal {fast slow : ℕ} (hf : 1 ≤ fast) (hs : 1 ≤ slow) (signal : ℕ) (vs : List K) :
    (of fast slow signal vs).signal = (Ema.of signal (differences fast slow vs)).value := by
  rw [of_eq_state hf hs]
  rfl

lemma of_macd {fast slow : ℕ} (hf : 1 ≤ fast) (hs : 1 ≤ slow) (signal : ℕ) (vs : List K) :
    (of fast slow signal vs).macd = (Ema.of fast vs).value - (Ema.of slow vs).value := by
  rw [of_eq_state hf hs]
  rfl

lemma of_macd_map_mul {fast slow : ℕ} (hf : 1 ≤ fast) (hs : 1 ≤ slow) (signal : ℕ) (c : K)
    (vs : List K) :
    (of fast slow signal (vs.map (c * ·))).macd = c * (of fast slow signal vs).macd := by
  rw [of_macd hf hs, of_macd hf hs, Ema.of_value_map_mul hf, Ema.of_value_map_mul hs, mul_sub]

lemma of_signal_map_mul {fast slow signal : ℕ} (hf : 1 ≤ fast) (hs : 1 ≤ slow) (hsig : 1 ≤ signal)
    (c : K) (vs : List K) :
    (of fast slow signal (vs.map (c * ·))).signal = c * (of fast slow signal vs).signal := by
  rw [of_signal hf hs, of_signal hf hs, differences_map_mul hf hs, Ema.of_value_map_mul hsig]

section

variable [LinearOrder K] [IsStrictOrderedRing K]

/-- A shift cancels in the difference, unless just one of the averages has a reading. -/
lemma of_macd_map_add {fast slow : ℕ} (hf : 1 ≤ fast) (hs : 1 ≤ slow) (signal : ℕ) (c : K)
    {vs : List K} (h : vs.length < min fast slow ∨ max fast slow ≤ vs.length) :
    (of fast slow signal (vs.map (· + c))).macd = (of fast slow signal vs).macd := by
  have hlen : (vs.map (· + c)).length = vs.length := List.length_map _
  rw [of_macd hf hs, of_macd hf hs]
  rcases h with h | h
  · have hboth := lt_min_iff.mp h
    rw [Ema.of_value_of_lt hf (by omega), Ema.of_value_of_lt hs (by omega),
      Ema.of_value_of_lt hf hboth.1, Ema.of_value_of_lt hs hboth.2]
  · have hboth := max_le_iff.mp h
    rw [Ema.of_value_map_add hf c hboth.1, Ema.of_value_map_add hs c hboth.2]
    ring

lemma of_signal_map_add {fast slow : ℕ} (hf : 1 ≤ fast) (hs : 1 ≤ slow) (signal : ℕ) (c : K)
    (vs : List K) :
    (of fast slow signal (vs.map (· + c))).signal = (of fast slow signal vs).signal := by
  rw [of_signal hf hs, of_signal hf hs, differences_map_add hf hs]

end

end Macd

/-! ## Both indicators -/

/-- **`Ema` and `Macd` are their batch definitions.** An average is ready after `period` values,
has the weights of the closed form and stays between the extremes; the MACD line is a difference
of two averages and its signal an average of these differences from the push on that makes both
ready. A shift of the prices leaves the readings, as long as the two averages are both ready or
both not, and a scaling scales them. -/
theorem averages_batch [LinearOrder K] [IsStrictOrderedRing K] (period fast slow signal : ℕ)
    (hp : 1 ≤ period) (hf : 1 ≤ fast) (hs : 1 ≤ slow) (hsig : 1 ≤ signal) (vs : List K) (c : K) :
    (((Ema.of period vs).ready = true ↔ period ≤ vs.length) ∧
      (period ≤ vs.length → (Ema.of period vs).value = Ema.batch period vs ∧
        ∀ lo hi, vs.min? = some lo → vs.max? = some hi →
          lo ≤ (Ema.of period vs).value ∧ (Ema.of period vs).value ≤ hi)) ∧
    (((Macd.of fast slow signal vs).ready = true ↔ max fast slow + signal - 1 ≤ vs.length) ∧
      (Macd.of fast slow signal vs).macd = (Ema.of fast vs).value - (Ema.of slow vs).value ∧
      (Macd.of fast slow signal vs).signal
        = (Ema.of signal (Macd.differences fast slow vs)).value) ∧
    ((Macd.of fast slow signal (vs.map (· + c))).signal = (Macd.of fast slow signal vs).signal ∧
      (vs.length < min fast slow ∨ max fast slow ≤ vs.length →
        (Macd.of fast slow signal (vs.map (· + c))).macd = (Macd.of fast slow signal vs).macd ∧
        (Macd.of fast slow signal (vs.map (· + c))).histogram
          = (Macd.of fast slow signal vs).histogram)) ∧
    (Macd.of fast slow signal (vs.map (c * ·))).macd = c * (Macd.of fast slow signal vs).macd ∧
    (Macd.of fast slow signal (vs.map (c * ·))).signal = c * (Macd.of fast slow signal vs).signal ∧
    (Macd.of fast slow signal (vs.map (c * ·))).histogram
      = c * (Macd.of fast slow signal vs).histogram := by
  have hscale := Macd.of_macd_map_mul hf hs signal c vs
  have hscale' := Macd.of_signal_map_mul hf hs hsig c vs
  have hshift' := Macd.of_signal_map_add hf hs signal c vs
  refine ⟨⟨?_, ?_⟩, ⟨Macd.of_ready hf hs hsig vs, Macd.of_macd hf hs signal vs,
    Macd.of_signal hf hs signal vs⟩, ⟨hshift', ?_⟩, hscale, hscale', ?_⟩
  · rw [Ema.of_ready hp, decide_eq_true_iff]
  · intro h
    exact ⟨Ema.of_value_eq_batch hp h, fun lo hi hlo hhi => Ema.of_value_mem_Icc hp h hlo hhi⟩
  · intro h
    have hshift := Macd.of_macd_map_add hf hs signal c h
    refine ⟨hshift, ?_⟩
    rw [Macd.histogram, hshift, hshift']
    rfl
  · rw [Macd.histogram, hscale, hscale', Macd.histogram]
    ring

/-- Three prices, with a MACD that is ready. -/
theorem averages_batch_three :
    (Ema.of 2 [(1 : ℚ), 2, 6]).value = 9 / 2 ∧
    (Macd.of 1 2 1 [(1 : ℚ), 2, 6]).ready = true ∧
    (Macd.of 1 2 1 ([(1 : ℚ), 2, 6].map (· + 10))).histogram
      = (Macd.of 1 2 1 [(1 : ℚ), 2, 6]).histogram := by
  obtain ⟨-, ⟨hready, -⟩, ⟨-, hshift⟩, -⟩ :=
    averages_batch 2 1 2 1 (by decide) (by decide) (by decide) (by decide) [(1 : ℚ), 2, 6] 10
  exact ⟨by decide +kernel, hready.mpr (by decide), (hshift (by decide)).2⟩

/-- One price, with the fast average ready and the slow one not: `macd()` is the price itself. -/
theorem macd_shifted_before_ready :
    ¬ ∀ fast slow signal : ℕ, 1 ≤ fast → 1 ≤ slow → 1 ≤ signal → ∀ (vs : List ℚ) (c : ℚ),
      (Macd.of fast slow signal (vs.map (· + c))).macd = (Macd.of fast slow signal vs).macd := by
  intro h
  have hshift := h 1 2 1 (by decide) (by decide) (by decide) [5] 1
  revert hshift
  decide +kernel

end Algo
end TInvest
