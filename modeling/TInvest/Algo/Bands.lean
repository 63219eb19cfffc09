import TInvest.Lib.SlidingWindow
import TInvest.Lib.Mean
import TInvest.Algo.Averages
import TInvest.Algo.Runs
import TInvest.Algo.Strategies

/-!
# Bands and channels

`Bollinger` and `Donchian` hold the last values of what was pushed, and the strategies on them see
the bars of a run through these windows.

* The middle band, summed up anew at each reading, is the simple average with its running sum
  (`sma_eq_bollinger`).
* Bands that are wide enough for their period contain every value of the window, by Samuelson's
  inequality, so `BollingerReversion` never buys there.
* `DonchianBreakout` compares a close with the bars before it; the last of them lies in both
  channels, so a close is not above one and below the other.
-/

namespace TInvest
namespace Algo

open Lib Lib.SlidingWindow Lib.Mealy

/-! ## Bollinger bands -/

namespace Bollinger

variable {K : Type*} [Field K]

/-- `Bollinger(period, mult)` after the pushes. -/
def of (period : ℕ) (mult : K) (vs : List K) : Bollinger K :=
  vs.foldl push { period := period, mult := mult }

lemma of_concat (period : ℕ) (mult : K) (vs : List K) (v : K) :
    of period mult (vs ++ [v]) = (of period mult vs).push v :=
  List.foldl_concat ..

/-- The state after the values. -/
def state (period : ℕ) (mult : K) (vs : List K) : Bollinger K where
  period := period
  mult := mult
  window := vs.rtake period

lemma push_state (period : ℕ) (mult : K) (vs : List K) (v : K) :
    (state period mult vs).push v = state period mult (vs ++ [v]) := by
  rw [state, state, ← push_rtake, SlidingWindow.push, push]
  split <;> rfl

lemma of_eq_state (period : ℕ) (mult : K) (vs : List K) :
    of period mult vs = state period mult vs := by
  have hfresh : ({ period := period, mult := mult } : Bollinger K) = state period mult [] := by
    rw [state, List.rtake_nil]
  exact foldl_eq_of_step (state period mult) hfresh (push_state period mult) vs

lemma of_window (period : ℕ) (mult : K) (vs : List K) :
    (of period mult vs).window = vs.rtake period := by
  rw [of_eq_state, state]

lemma of_ready (period : ℕ) (mult : K) (vs : List K) :
    (of period mult vs).ready = decide (period ≤ vs.length) := by
  rw [ready, of_eq_state, state, Bool.eq_iff_iff, beq_iff_eq, decide_eq_true_iff,
    length_rtake_eq_iff]

lemma middle_eq (b : Bollinger K) : b.middle = mean b.window := rfl

end Bollinger

/-- **The running average is the recomputed one.** After any pushes `Sma` and `Bollinger` hold the
same window, the last values in their order, and are ready together; the running sum, which a push
adds to and an eviction subtracts from, gives the average that the middle band sums up from the
window. There is always a value to divide by. -/
theorem sma_eq_bollinger {K : Type*} [Field K] [CharZero K] {period : ℕ} (hp : 1 ≤ period)
    (mult : K) {vs : List K} (hvs : 1 ≤ vs.length) :
    ((Sma.of period vs).window = vs.rtake (min vs.length period) ∧
      (Bollinger.of period mult vs).window = vs.rtake (min vs.length period)) ∧
    (((Sma.of period vs).ready = true ↔ period ≤ vs.length) ∧
      ((Bollinger.of period mult vs).ready = true ↔ period ≤ vs.length)) ∧
    (Sma.of period vs).value = (Bollinger.of period mult vs).middle ∧
    ((Sma.of period vs).window.length : K) ≠ 0 := by
  have hwindow : (vs.rtake period).length ≠ 0 := by
    rw [length_rtake]
    omega
  refine ⟨⟨?_, ?_⟩, ⟨?_, ?_⟩, ?_, ?_⟩
  · rw [Sma.of_window, rtake_min_length]
  · rw [Bollinger.of_window, rtake_min_length]
  · rw [Sma.of_ready, decide_eq_true_iff]
  · rw [Bollinger.of_ready, decide_eq_true_iff]
  · rw [Sma.of_value, Bollinger.middle_eq, Bollinger.of_window]
  · rw [Sma.of_window]
    exact Nat.cast_ne_zero.mpr hwindow

/-- A period of 3, with the first value evicted. -/
theorem sma_eq_bollinger_four :
    (Sma.of 3 [(1 : ℚ), 2, 3, 7]).window = [2, 3, 7] ∧
    (Sma.of 3 [(1 : ℚ), 2, 3, 7]).value = (Bollinger.of 3 2 [(1 : ℚ), 2, 3, 7]).middle ∧
    (Bollinger.of 3 2 [(1 : ℚ), 2, 3, 7]).middle = 4 := by
  have hperiod : 1 ≤ 3 := by decide
  have hvs : 1 ≤ [(1 : ℚ), 2, 3, 7].length := by decide
  obtain ⟨⟨hwindow, -⟩, -, hvalue, -⟩ := sma_eq_bollinger hperiod 2 hvs
  exact ⟨hwindow, hvalue, by decide +kernel⟩

section

variable {b : Bollinger ℝ}

/-- The standard deviation is not negative. -/
lemma Bollinger.stddev_nonneg (b : Bollinger ℝ) : 0 ≤ b.stddev Real.sqrt := Real.sqrt_nonneg _

lemma Bollinger.middle_mem_Icc (h : 0 ≤ b.mult) :
    b.lower Real.sqrt ≤ b.middle ∧ b.middle ≤ b.upper Real.sqrt := by
  have hwidth : 0 ≤ b.mult * b.stddev Real.sqrt := mul_nonneg h b.stddev_nonneg
  rw [lower, upper]
  exact ⟨by linarith, by linarith⟩

/-- The squared width of a band, times the number of readings. -/
lemma Bollinger.length_mul_sq_width (hne : b.window ≠ []) :
    b.window.length * (b.mult * b.stddev Real.sqrt) ^ 2 =
      b.mult ^ 2 * (b.window.map fun y => (y - mean b.window) ^ 2).sum := by
  have hpos : (0 : ℝ) < b.window.length := length_pos_cast hne
  have hsquares : (b.window.map fun v => (v - b.middle) * (v - b.middle))
      = b.window.map fun y => (y - mean b.window) ^ 2 := by
    apply List.map_congr_left
    intro v _
    rw [middle_eq]
    ring
  have hsq : b.stddev Real.sqrt ^ 2
      = (b.window.map fun y => (y - mean b.window) ^ 2).sum / b.window.length := by
    rw [stddev]
    simp only [hsquares]
    exact Real.sq_sqrt (div_nonneg (sum_sq_sub_nonneg ..) hpos.le)
  rw [mul_pow, hsq]
  field_simp

/-- **Wide bands contain their data.** -/
theorem Bollinger.mem_Icc_of_wide (h : 0 ≤ b.mult) (hwide : b.window.length - 1 ≤ b.mult ^ 2)
    {v : ℝ} (hv : v ∈ b.window) :
    b.lower Real.sqrt ≤ v ∧ v ≤ b.upper Real.sqrt := by
  have hne : b.window ≠ [] := List.ne_nil_of_mem hv
  have hpos : (0 : ℝ) < b.window.length := length_pos_cast hne
  have hwidth : 0 ≤ b.mult * b.stddev Real.sqrt := mul_nonneg h b.stddev_nonneg
  have hdeviation : (v - b.middle) ^ 2 ≤ (b.mult * b.stddev Real.sqrt) ^ 2 := by
    rw [middle_eq]
    refine le_of_mul_le_mul_left ?_ hpos
    calc b.window.length * (v - mean b.window) ^ 2
        ≤ (b.window.length - 1) * (b.window.map fun y => (y - mean b.window) ^ 2).sum :=
          mul_sq_sub_mean_le hv
      _ ≤ b.mult ^ 2 * (b.window.map fun y => (y - mean b.window) ^ 2).sum :=
          mul_le_mul_of_nonneg_right hwide (sum_sq_sub_nonneg ..)
      _ = b.window.length * (b.mult * b.stddev Real.sqrt) ^ 2 :=
          (length_mul_sq_width hne).symm
  obtain ⟨hlow, hhigh⟩ := abs_le_of_sq_le_sq' hdeviation hwidth
  rw [lower, upper]
  exact ⟨by linarith, by linarith⟩

/-- The same for the bands of a run. -/
lemma Bollinger.of_mem_Icc_of_wide {period : ℕ} {mult : ℝ} (hmult : 0 ≤ mult)
    (hwide : (period : ℝ) - 1 ≤ mult ^ 2) {vs : List ℝ} (hready : (of period mult vs).ready = true)
    {v : ℝ} (hv : v ∈ (of period mult vs).window) :
    (of period mult vs).lower Real.sqrt ≤ v ∧ v ≤ (of period mult vs).upper Real.sqrt := by
  rw [of_ready, decide_eq_true_iff] at hready
  have hlen : (vs.rtake period).length = period := length_rtake_eq_iff.mpr hready
  rw [of_eq_state, state] at hv ⊢
  exact mem_Icc_of_wide hmult (by simpa only [hlen] using hwide) hv

end

/-! ## Reversion to the middle band -/

namespace BollingerReversion

variable {K : Type*} [Field K] [LinearOrder K]

/-- The state of the strategy after the bars. -/
lemma after_eq (sqrt : K → K) (period : ℕ) (mult : K) (bars : List (Bar K)) :
    after (strategy sqrt period).onBar (make period mult) bars =
      { bb := Bollinger.of period mult (bars.map Bar.close) } := by
  refine after_eq_of_step (strategy sqrt period).onBar
    (fun bars => { bb := Bollinger.of period mult (bars.map Bar.close) }) rfl ?_ bars
  intro bars bar
  rw [List.map_append, List.map_singleton, Bollinger.of_concat]
  rfl

/-- It buys only below the lower band. -/
lemma lt_lower_of_buy {sqrt : K → K} {s : BollingerReversion K} {bar : Bar K}
    (h : (onBar sqrt s bar).2 = .buy) :
    (s.bb.push bar.close).ready = true ∧ bar.close < (s.bb.push bar.close).lower sqrt := by
  rw [onBar] at h
  simp only at h
  split at h
  · exact absurd h (by simp)
  · next hready =>
    split at h
    · next hlt => exact ⟨by simpa using hready, hlt⟩
    · split at h <;> exact absurd h (by simp)

/-- A strategy with wide bands never buys: the close of a bar is in the window it is compared
with. -/
lemma buy_notMem_emitted {period : ℕ} (hp : 1 ≤ period) {mult : ℝ} (hmult : 0 ≤ mult)
    (hwide : (period : ℝ) - 1 ≤ mult ^ 2) (bars : List (Bar ℝ)) :
    .buy ∉ emitted (strategy Real.sqrt period) (make period mult) bars := by
  intro hmem
  obtain ⟨i, hi⟩ := List.mem_iff_getElem?.mp hmem
  have hlt : i < bars.length := by
    rw [← length_emitted (strategy Real.sqrt period) (make period mult)]
    exact (List.getElem?_eq_some_iff.mp hi).1
  rw [emitted_getElem? _ _ (List.getElem?_eq_getElem hlt), Option.some_inj, after_eq] at hi
  obtain ⟨hready, hbelow⟩ := lt_lower_of_buy hi
  rw [← Bollinger.of_concat] at hready hbelow
  have hnewest : bars[i].close ∈ (Bollinger.of period mult
      ((bars.take i).map Bar.close ++ [bars[i].close])).window := by
    rw [Bollinger.of_window]
    exact mem_rtake_concat hp _ _
  have hinside := Bollinger.of_mem_Icc_of_wide hmult hwide hready hnewest
  exact absurd hbelow (not_lt.mpr hinside.1)

end BollingerReversion

/-- **Bands and reversion.** Once ready, bands with `mult ^ 2 ≥ period - 1` contain every value of
the window, and the strategy built with them never buys; from the first value on the middle is
inside the bands, so a close is not below the lower one and above the middle. -/
theorem bollinger_contains {period : ℕ} (hp : 1 ≤ period) {mult : ℝ} (hmult : 0 ≤ mult) :
    ((period : ℝ) - 1 ≤ mult ^ 2 →
      (∀ vs, (Bollinger.of period mult vs).ready = true →
        ∀ v ∈ (Bollinger.of period mult vs).window,
          (Bollinger.of period mult vs).lower Real.sqrt ≤ v ∧
            v ≤ (Bollinger.of period mult vs).upper Real.sqrt) ∧
      ∀ bars, .buy ∉ emitted (BollingerReversion.strategy Real.sqrt period)
        (BollingerReversion.make period mult) bars) ∧
    ∀ vs ≠ [], ((Bollinger.of period mult vs).lower Real.sqrt
          ≤ (Bollinger.of period mult vs).middle ∧
        (Bollinger.of period mult vs).middle ≤ (Bollinger.of period mult vs).upper Real.sqrt) ∧
      ∀ close, ¬ (close < (Bollinger.of period mult vs).lower Real.sqrt ∧
        (Bollinger.of period mult vs).middle < close) := by
  constructor
  · intro hwide
    exact ⟨fun vs hready v hv => Bollinger.of_mem_Icc_of_wide hmult hwide hready hv,
      BollingerReversion.buy_notMem_emitted hp hmult hwide⟩
  · intro vs _
    have hmid : (Bollinger.of period mult vs).lower Real.sqrt
          ≤ (Bollinger.of period mult vs).middle ∧
        (Bollinger.of period mult vs).middle
          ≤ (Bollinger.of period mult vs).upper Real.sqrt := by
      rw [Bollinger.of_eq_state, Bollinger.state]
      exact Bollinger.middle_mem_Icc hmult
    refine ⟨hmid, ?_⟩
    rintro close ⟨hlow, hmiddle⟩
    linarith [hmid.1]

/-- A period of 5 with the default of two deviations. -/
theorem bollinger_contains_five :
    ((5 : ℕ) : ℝ) - 1 ≤ 2 ^ 2 ∧ ∀ bars : List (Bar ℝ), .buy ∉
      emitted (BollingerReversion.strategy Real.sqrt 5) (BollingerReversion.make 5 2) bars := by
  have hwide : ((5 : ℕ) : ℝ) - 1 ≤ 2 ^ 2 := by norm_num
  exact ⟨hwide, ((bollinger_contains (by norm_num) (by norm_num)).1 hwide).2⟩

/-! ## Donchian channels -/

section

variable {K : Type*}

namespace Donchian

/-- `Donchian(period)` after the bars. -/
def of (period : ℕ) (bars : List (Bar K)) : Donchian K :=
  bars.foldl (fun d bar => d.push bar.high bar.low) { period := period }

lemma of_concat (period : ℕ) (bars : List (Bar K)) (bar : Bar K) :
    of period (bars ++ [bar]) = (of period bars).push bar.high bar.low :=
  List.foldl_concat ..

/-- The two queues are the windows of the highs and of the lows. -/
def state (period : ℕ) (bars : List (Bar K)) : Donchian K where
  period := period
  highs := (bars.map Bar.high).rtake period
  lows := (bars.map Bar.low).rtake period

lemma push_state (period : ℕ) (bars : List (Bar K)) (bar : Bar K) :
    (state period bars).push bar.high bar.low = state period (bars ++ [bar]) := by
  have hlen : ((bars.map Bar.high).rtake period ++ [bar.high]).length
      = ((bars.map Bar.low).rtake period ++ [bar.low]).length := by simp
  rw [state, state, List.map_append, List.map_append, List.map_singleton, List.map_singleton,
    ← push_rtake, ← push_rtake, SlidingWindow.push, SlidingWindow.push, push]
  simp only [hlen]
  split <;> rfl

lemma of_eq_state (period : ℕ) (bars : List (Bar K)) : of period bars = state period bars := by
  have hfresh : ({ period := period } : Donchian K) = state period [] := by
    rw [state, List.map_nil, List.map_nil, List.rtake_nil]
  exact foldl_eq_of_step (state period) hfresh (push_state period) bars

lemma of_ready (period : ℕ) (bars : List (Bar K)) :
    (of period bars).ready = true ↔ period ≤ bars.length := by
  rw [of_eq_state, state, ready, beq_iff_eq, length_rtake_eq_iff, List.length_map]

end Donchian

/-! ## Breakouts -/

variable [LinearOrder K]

/-- The highest high of the last bars. -/
def highest (period : ℕ) (bars : List (Bar K)) : Option K := ((bars.rtake period).map Bar.high).max?

/-- The lowest low of the last bars. -/
def lowest (period : ℕ) (bars : List (Bar K)) : Option K := ((bars.rtake period).map Bar.low).min?

lemma Donchian.of_upper (period : ℕ) (bars : List (Bar K)) :
    (of period bars).upper = highest period bars := by
  rw [of_eq_state, state, upper, highest, map_rtake]

lemma Donchian.of_lower (period : ℕ) (bars : List (Bar K)) :
    (of period bars).lower = lowest period bars := by
  rw [of_eq_state, state, lower, lowest, map_rtake]

/-- The close breaks out of the last `entry` of the bars before it. -/
def BreaksOut (entry : ℕ) (prior : List (Bar K)) (close : K) : Prop :=
  entry ≤ prior.length ∧ ∃ u, highest entry prior = some u ∧ u < close

/-- The close falls out of the last `exit` of the bars before it. -/
def FallsOut (exit : ℕ) (prior : List (Bar K)) (close : K) : Prop :=
  exit ≤ prior.length ∧ ∃ l, lowest exit prior = some l ∧ close < l

/-- The latest bar is in both windows. -/
lemma not_breaksOut_and_fallsOut {entry exit : ℕ} (hentry : 1 ≤ entry) (hexit : 1 ≤ exit)
    {prior : List (Bar K)} (hprior : ∀ bar ∈ prior, bar.low ≤ bar.high) (close : K) :
    ¬ (BreaksOut entry prior close ∧ FallsOut exit prior close) := by
  rintro ⟨⟨hlen, u, hu, hclose⟩, ⟨-, l, hl, hclose'⟩⟩
  have hne : prior ≠ [] := List.ne_nil_of_length_pos (by omega)
  obtain ⟨older, last, rfl⟩ := List.eq_nil_or_concat' prior |>.resolve_left hne
  have hhigh : last.high ≤ u :=
    (List.max?_eq_some_iff.mp hu).2 _ (List.mem_map_of_mem (mem_rtake_concat hentry older last))
  have hlow : l ≤ last.low :=
    (List.min?_eq_some_iff.mp hl).2 _ (List.mem_map_of_mem (mem_rtake_concat hexit older last))
  have hlast : last.low ≤ last.high := hprior last List.mem_concat_self
  have hlt : u < l := hclose.trans hclose'
  exact absurd hlt (not_lt.mpr (hlow.trans (hlast.trans hhigh)))

namespace DonchianBreakout

/-- The state of the strategy after the bars. -/
lemma after_eq (entry exit : ℕ) (bars : List (Bar K)) :
    after (strategy entry exit).onBar (make entry exit) bars =
      { entry := Donchian.of entry bars, exit := Donchian.of exit bars } := by
  refine after_eq_of_step (strategy entry exit).onBar
    (fun bars => { entry := Donchian.of entry bars, exit := Donchian.of exit bars }) rfl ?_ bars
  intro bars bar
  rw [Donchian.of_concat, Donchian.of_concat]
  rfl

/-- What the entry channel says about a close. -/
lemma entry_iff (entry : ℕ) (prior : List (Bar K)) (close : K) :
    ((Donchian.of entry prior).ready && (Donchian.of entry prior).upper.any fun u => u < close)
      = true ↔ BreaksOut entry prior close := by
  rw [Bool.and_eq_true, Donchian.of_ready, BreaksOut, Option.any_eq_true, Donchian.of_upper]
  simp only [decide_eq_true_eq]

/-- What the exit channel says about it. -/
lemma exit_iff (exit : ℕ) (prior : List (Bar K)) (close : K) :
    ((Donchian.of exit prior).ready && (Donchian.of exit prior).lower.any fun l => close < l)
      = true ↔ FallsOut exit prior close := by
  rw [Bool.and_eq_true, Donchian.of_ready, FallsOut, Option.any_eq_true, Donchian.of_lower]
  simp only [decide_eq_true_eq]

/-- The action on a bar, given the bars before it; the exit is tested last. -/
lemma onBar_of (entry exit : ℕ) (prior : List (Bar K)) (bar : Bar K) [Decidable
    (BreaksOut entry prior bar.close)] [Decidable (FallsOut exit prior bar.close)] :
    (onBar { entry := Donchian.of entry prior, exit := Donchian.of exit prior } bar).2 =
      if FallsOut exit prior bar.close then .sell
      else if BreaksOut entry prior bar.close then .buy
      else .hold := by
  rw [onBar]
  simp only [entry_iff, exit_iff]

end DonchianBreakout

/-- **The turtle rule.** The action on a bar: buy when it breaks out of the `entry` bars before
it, sell when it falls out of the `exit` bars before it, else hold; the two conditions exclude
each other. -/
theorem donchian_turtle {entry exit : ℕ} (hentry : 1 ≤ entry) (hexit : 1 ≤ exit)
    {bars : List (Bar K)} (hbars : ∀ bar ∈ bars, bar.low ≤ bar.high) {n : ℕ} {bar : Bar K}
    (hbar : bars[n]? = some bar) :
    ∃ a, (emitted (DonchianBreakout.strategy entry exit) (DonchianBreakout.make entry exit)
        bars)[n]? = some a ∧
      (a = .buy ↔ BreaksOut entry (bars.take n) bar.close) ∧
      (a = .sell ↔ FallsOut exit (bars.take n) bar.close) ∧
      (a = .hold ↔ ¬ BreaksOut entry (bars.take n) bar.close ∧
        ¬ FallsOut exit (bars.take n) bar.close) ∧
      ¬ (BreaksOut entry (bars.take n) bar.close ∧ FallsOut exit (bars.take n) bar.close) := by
  classical
  have hprior : ∀ b ∈ bars.take n, b.low ≤ b.high :=
    fun b hb => hbars b (List.mem_of_mem_take hb)
  have hapart := not_breaksOut_and_fallsOut hentry hexit hprior bar.close
  have hact := emitted_getElem? (DonchianBreakout.strategy entry exit)
    (DonchianBreakout.make entry exit) hbar
  rw [DonchianBreakout.after_eq] at hact
  refine ⟨_, hact.trans (congrArg some (DonchianBreakout.onBar_of entry exit _ bar)), ?_⟩
  by_cases hout : FallsOut exit (bars.take n) bar.close
  · have hin : ¬ BreaksOut entry (bars.take n) bar.close := fun h => hapart ⟨h, hout⟩
    simp [hout, hin]
  · by_cases hin : BreaksOut entry (bars.take n) bar.close <;> simp [hout, hin]

/-- Three bars, the last one above the high of the two before it. -/
theorem donchian_turtle_three :
    (emitted (DonchianBreakout.strategy 2 1) (DonchianBreakout.make 2 1)
      [(⟨0, 1, 2, 1, 1, 0⟩ : Bar ℤ), ⟨1, 1, 3, 1, 2, 0⟩, ⟨2, 2, 9, 2, 5, 0⟩])[2]? = some .buy := by
  set bars := [(⟨0, 1, 2, 1, 1, 0⟩ : Bar ℤ), ⟨1, 1, 3, 1, 2, 0⟩, ⟨2, 2, 9, 2, 5, 0⟩] with hdef
  have hentry : 1 ≤ 2 := by decide
  have hexit : 1 ≤ 1 := by decide
  have hbars : ∀ bar ∈ bars, bar.low ≤ bar.high := by decide
  have hbar : bars[2]? = some ⟨2, 2, 9, 2, 5, 0⟩ := rfl
  obtain ⟨a, ha, hbuy, -⟩ := donchian_turtle hentry hexit hbars hbar
  rw [ha, hbuy.mpr ⟨by decide, 3, rfl, by decide⟩]

end

end Algo
end TInvest
