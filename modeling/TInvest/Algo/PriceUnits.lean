import TInvest.Algo.CrossRules

/-!
# Other units of price

What a strategy decides does not depend on the unit the prices are quoted in, nor on where they are
counted from: on the bars with every price `v` replaced by `c * v + d`, for a positive `c`, it takes
the same actions. For each indicator a relation says what its object holds after the moved values
(`Moved`), and a push keeps it; a strategy compares readings that move alike. The returns of a
backtest are ratios of prices, so a report changes in the prices of its log alone, when the prices
are only scaled.

* `signals_unit_free` — the actions of the six strategies;
* `backtest_unit_free` — the report on scaled prices.
-/

namespace TInvest
namespace Algo

open Lib.Mealy

variable {K : Type*} [Field K]

/-- A price in other units. -/
def moved (c d v : K) : K := c * v + d

/-- The bar in other units. -/
def Bar.move (c d : K) (bar : Bar K) : Bar K :=
  { bar with
    openPrice := moved c d bar.openPrice
    high := moved c d bar.high
    low := moved c d bar.low
    close := moved c d bar.close }

lemma sum_map_moved (c d : K) (xs : List K) :
    (xs.map (moved c d)).sum = c * xs.sum + xs.length * d := by
  induction xs with
  | nil => simp
  | cons x xs ih =>
    rw [List.map_cons, List.sum_cons, ih, List.sum_cons, List.length_cons, moved]
    push_cast
    ring

/-! ## Averages -/

/-- The averages before and after the move. -/
structure Sma.Moved (c d : K) (s t : Sma K) : Prop where
  period : t.period = s.period
  window : t.window = s.window.map (moved c d)
  sum : t.sum = c * s.sum + s.window.length * d

namespace Sma

lemma moved_fresh (c d : K) (period : ℕ) :
    Moved c d { period := period } { period := period } :=
  ⟨rfl, rfl, by simp⟩

lemma Moved.push {c d : K} {s t : Sma K} (h : Moved c d s t) (v : K) :
    Moved c d (s.push v) (t.push (moved c d v)) := by
  have hwindow : t.window ++ [moved c d v] = (s.window ++ [v]).map (moved c d) := by
    rw [h.window, List.map_append]
    rfl
  rw [Sma.push, Sma.push]
  simp only [hwindow, List.length_map, h.period]
  split
  · -- the front leaves the window and the sum
    refine ⟨rfl, (List.map_tail ..).symm, ?_⟩
    cases hs : s.window with
    | nil =>
      simp only [hs, List.nil_append, List.map_cons, List.headD_cons, List.tail_cons,
        List.length_nil, h.sum, moved]
      push_cast
      ring
    | cons w window =>
      simp only [hs, List.cons_append, List.map_cons, List.headD_cons, List.tail_cons,
        List.length_append, List.length_nil, List.length_cons, h.sum, moved]
      push_cast
      ring
  · refine ⟨rfl, rfl, ?_⟩
    show t.sum + moved c d v = c * (s.sum + v) + ((s.window ++ [v]).length : ℕ) * d
    rw [h.sum, List.length_append, List.length_singleton, moved]
    push_cast
    ring

lemma Moved.ready {c d : K} {s t : Sma K} (h : Moved c d s t) : t.ready = s.ready := by
  rw [Sma.ready, Sma.ready, h.window, h.period, List.length_map]

lemma push_period (s : Sma K) (v : K) : (s.push v).period = s.period := by
  rw [Sma.push]
  split <;> rfl

/-- After a push there is something to average. -/
lemma push_window_ne_nil {s : Sma K} (hp : 1 ≤ s.period) (v : K) : (s.push v).window ≠ [] := by
  rw [Sma.push]
  split
  · next hlong =>
    refine List.ne_nil_of_length_pos ?_
    rw [List.length_tail]
    omega
  · simp

variable [CharZero K]

lemma Moved.value {c d : K} {s t : Sma K} (h : Moved c d s t) (hne : s.window ≠ []) :
    t.value = moved c d s.value := by
  have hlen : (s.window.length : K) ≠ 0 := by
    rw [Nat.cast_ne_zero]
    exact (List.length_pos_of_ne_nil hne).ne'
  rw [Sma.value, Sma.value, h.window, h.sum, List.length_map, moved]
  field_simp

end Sma

/-- The averages before and after the move; there is a value when they are ready. -/
structure Ema.Moved (c d : K) (s t : Ema K) : Prop where
  k : t.k = s.k
  seed : s.seed.Moved c d t.seed
  seeded : 1 ≤ s.seed.period
  ready : t.ready = s.ready
  value : s.ready = true → t.value = moved c d s.value

namespace Ema

lemma moved_make (c d : K) {period : ℕ} (hp : 1 ≤ period) :
    Moved c d (make period) (make period) :=
  ⟨rfl, Sma.moved_fresh c d period, hp, rfl, fun h => absurd h (by simp [make])⟩

variable [CharZero K]

lemma Moved.push {c d : K} {s t : Ema K} (h : Moved c d s t) (v : K) :
    Moved c d (s.push v) (t.push (moved c d v)) := by
  rw [Ema.push, Ema.push, h.ready]
  by_cases hready : s.ready = true
  · rw [if_pos hready, if_pos hready]
    refine ⟨h.k, h.seed, h.seeded, rfl, fun _ => ?_⟩
    show moved c d v * t.k + t.value * (1 - t.k) = moved c d (v * s.k + s.value * (1 - s.k))
    rw [h.k, h.value hready]
    simp only [moved]
    ring
  · have hseed := h.seed.push v
    have hperiod : 1 ≤ (s.seed.push v).period := by
      rw [Sma.push_period]
      exact h.seeded
    rw [if_neg hready, if_neg hready]
    simp only [hseed.ready]
    split
    · exact ⟨h.k, hseed, hperiod, rfl, fun _ => hseed.value (Sma.push_window_ne_nil h.seeded v)⟩
    · exact ⟨h.k, hseed, hperiod, rfl, fun hr => absurd hr hready⟩

end Ema

/-- The lines before and after the move, which the difference of two averages does not see. -/
structure Macd.Moved (c d : K) (s t : Macd K) : Prop where
  fast : s.fast.Moved c d t.fast
  slow : s.slow.Moved c d t.slow
  signalLine : s.signalLine.Moved c 0 t.signalLine
  ready : s.signalLine.ready = true → s.fast.ready = true ∧ s.slow.ready = true

namespace Macd

lemma moved_make (c d : K) {fast slow signal : ℕ} (hf : 1 ≤ fast) (hs : 1 ≤ slow)
    (hsig : 1 ≤ signal) : Moved c d (make fast slow signal) (make fast slow signal) :=
  ⟨Ema.moved_make c d hf, Ema.moved_make c d hs, Ema.moved_make c 0 hsig,
    fun h => absurd h (by simp [make, Ema.make])⟩

variable [CharZero K]

lemma Moved.push {c d : K} {s t : Macd K} (h : Moved c d s t) (v : K) :
    Moved c d (s.push v) (t.push (moved c d v)) := by
  have hfast := h.fast.push v
  have hslow := h.slow.push v
  rw [Macd.push, Macd.push]
  simp only [hfast.ready, hslow.ready]
  by_cases hboth : ((s.fast.push v).ready && (s.slow.push v).ready) = true
  · obtain ⟨hrf, hrs⟩ := Bool.and_eq_true_iff.mp hboth
    rw [if_pos hboth, if_pos hboth]
    refine ⟨hfast, hslow, ?_, fun _ => ⟨hrf, hrs⟩⟩
    have hdiff : (t.fast.push (moved c d v)).value - (t.slow.push (moved c d v)).value
        = moved c 0 ((s.fast.push v).value - (s.slow.push v).value) := by
      rw [hfast.value hrf, hslow.value hrs]
      simp only [moved]
      ring
    rw [hdiff]
    exact h.signalLine.push _
  · rw [if_neg hboth, if_neg hboth]
    refine ⟨hfast, hslow, h.signalLine, fun hr => ?_⟩
    obtain ⟨hrf, hrs⟩ := h.ready hr
    exact ⟨Ema.ready_push hrf v, Ema.ready_push hrs v⟩

omit [CharZero K] in
lemma Moved.histogram {c d : K} {s t : Macd K} (h : Moved c d s t) (hr : s.ready = true) :
    t.histogram = c * s.histogram := by
  obtain ⟨hrf, hrs⟩ := h.ready hr
  rw [Macd.histogram, Macd.histogram, Macd.macd, Macd.macd, Macd.signal, Macd.signal,
    h.fast.value hrf, h.slow.value hrs, h.signalLine.value hr]
  simp only [moved]
  ring

end Macd

/-! ## Bands and channels -/

/-- The bands before and after the move. -/
structure Bollinger.Moved (c d : K) (s t : Bollinger K) : Prop where
  period : t.period = s.period
  mult : t.mult = s.mult
  window : t.window = s.window.map (moved c d)

namespace Bollinger

lemma Moved.push {c d : K} {s t : Bollinger K} (h : Moved c d s t) (v : K) :
    Moved c d (s.push v) (t.push (moved c d v)) := by
  have hwindow : t.window ++ [moved c d v] = (s.window ++ [v]).map (moved c d) := by
    rw [h.window, List.map_append]
    rfl
  rw [Bollinger.push, Bollinger.push]
  simp only [hwindow, List.length_map, h.period]
  split
  · exact ⟨rfl, h.mult, (List.map_tail ..).symm⟩
  · exact ⟨rfl, h.mult, rfl⟩

lemma Moved.ready {c d : K} {s t : Bollinger K} (h : Moved c d s t) : t.ready = s.ready := by
  rw [Bollinger.ready, Bollinger.ready, h.window, h.period, List.length_map]

/-- After a push there is something to average. -/
lemma push_window_ne_nil {s : Bollinger K} (hp : 1 ≤ s.period) (v : K) :
    (s.push v).window ≠ [] := by
  rw [Bollinger.push]
  split
  · next hlong =>
    refine List.ne_nil_of_length_pos ?_
    rw [List.length_tail]
    omega
  · simp

lemma push_period (s : Bollinger K) (v : K) : (s.push v).period = s.period := by
  rw [Bollinger.push]
  split <;> rfl

section

variable [CharZero K]

lemma Moved.middle {c d : K} {s t : Bollinger K} (h : Moved c d s t) (hne : s.window ≠ []) :
    t.middle = moved c d s.middle := by
  have hlen : (s.window.length : K) ≠ 0 := by
    rw [Nat.cast_ne_zero]
    exact (List.length_pos_of_ne_nil hne).ne'
  rw [Bollinger.middle, Bollinger.middle, h.window, sum_map_moved, List.length_map, moved]
  field_simp

end

variable [LinearOrder K] [IsStrictOrderedRing K]

/-- What the bands take the root of. -/
lemma Moved.stddev {c d : K} {s t : Bollinger K} (h : Moved c d s t) (hne : s.window ≠ [])
    {sqrt : K → K} (hsqrt : ∀ x, 0 ≤ x → sqrt (c * c * x) = c * sqrt x) :
    t.stddev sqrt = c * s.stddev sqrt := by
  have hmap : t.window.map (fun v => (v - t.middle) * (v - t.middle))
      = s.window.map (fun v => c * c * ((v - s.middle) * (v - s.middle))) := by
    rw [h.window, List.map_map, h.middle hne]
    refine List.map_congr_left fun v _ => ?_
    simp only [Function.comp_apply, moved]
    ring
  have hnonneg : 0 ≤ (s.window.map fun v => (v - s.middle) * (v - s.middle)).sum
      / s.window.length := by
    refine div_nonneg (List.sum_nonneg fun x hx => ?_) (Nat.cast_nonneg _)
    obtain ⟨v, -, rfl⟩ := List.mem_map.mp hx
    exact mul_self_nonneg _
  have hlen : t.window.length = s.window.length := by rw [h.window, List.length_map]
  rw [Bollinger.stddev, Bollinger.stddev, hmap, List.sum_map_mul_left, hlen, mul_div_assoc,
    hsqrt _ hnonneg]

lemma Moved.lower {c d : K} {s t : Bollinger K} (h : Moved c d s t) (hne : s.window ≠ [])
    {sqrt : K → K} (hsqrt : ∀ x, 0 ≤ x → sqrt (c * c * x) = c * sqrt x) :
    t.lower sqrt = moved c d (s.lower sqrt) := by
  rw [Bollinger.lower, Bollinger.lower, h.middle hne, h.stddev hne hsqrt, h.mult, moved, moved]
  ring

end Bollinger

section

variable [LinearOrder K] [IsStrictOrderedRing K]

lemma moved_lt_moved {c : K} (hc : 0 < c) (d : K) {x y : K} :
    moved c d x < moved c d y ↔ x < y := by
  rw [moved, moved, add_lt_add_iff_right, mul_lt_mul_iff_right₀ hc]

lemma monotone_moved {c : K} (hc : 0 < c) (d : K) : Monotone (moved c d) := by
  intro x y hle
  have hmul := mul_le_mul_of_nonneg_left hle hc.le
  rw [moved, moved]
  linarith

lemma max?_map_moved {c : K} (hc : 0 < c) (d : K) (xs : List K) :
    (xs.map (moved c d)).max? = xs.max?.map (moved c d) := by
  cases xs with
  | nil => rfl
  | cons x xs =>
    simp only [List.map_cons, List.max?_cons', Option.map_some, Option.some_inj]
    induction xs generalizing x with
    | nil => rfl
    | cons y xs ih =>
      rw [List.map_cons, List.foldl_cons, List.foldl_cons, ← (monotone_moved hc d).map_max, ih]

lemma min?_map_moved {c : K} (hc : 0 < c) (d : K) (xs : List K) :
    (xs.map (moved c d)).min? = xs.min?.map (moved c d) := by
  cases xs with
  | nil => rfl
  | cons x xs =>
    simp only [List.map_cons, List.min?_cons', Option.map_some, Option.some_inj]
    induction xs generalizing x with
    | nil => rfl
    | cons y xs ih =>
      rw [List.map_cons, List.foldl_cons, List.foldl_cons, ← (monotone_moved hc d).map_min, ih]

/-- The channel before and after the move. -/
structure Donchian.Moved (c d : K) (s t : Donchian K) : Prop where
  period : t.period = s.period
  highs : t.highs = s.highs.map (moved c d)
  lows : t.lows = s.lows.map (moved c d)

namespace Donchian

omit [LinearOrder K] [IsStrictOrderedRing K] in
lemma Moved.push {c d : K} {s t : Donchian K} (h : Moved c d s t) (high low : K) :
    Moved c d (s.push high low) (t.push (moved c d high) (moved c d low)) := by
  have hhighs : t.highs ++ [moved c d high] = (s.highs ++ [high]).map (moved c d) := by
    rw [h.highs, List.map_append]
    rfl
  have hlows : t.lows ++ [moved c d low] = (s.lows ++ [low]).map (moved c d) := by
    rw [h.lows, List.map_append]
    rfl
  rw [Donchian.push, Donchian.push]
  simp only [hhighs, hlows, List.length_map, h.period]
  split
  · exact ⟨rfl, (List.map_tail ..).symm, (List.map_tail ..).symm⟩
  · exact ⟨rfl, rfl, rfl⟩

omit [LinearOrder K] [IsStrictOrderedRing K] in
lemma Moved.ready {c d : K} {s t : Donchian K} (h : Moved c d s t) : t.ready = s.ready := by
  rw [Donchian.ready, Donchian.ready, h.highs, h.period, List.length_map]

lemma Moved.upper {c d : K} (hc : 0 < c) {s t : Donchian K} (h : Moved c d s t) :
    t.upper = s.upper.map (moved c d) := by
  rw [Donchian.upper, h.highs, max?_map_moved hc, Donchian.upper]

lemma Moved.lower {c d : K} (hc : 0 < c) {s t : Donchian K} (h : Moved c d s t) :
    t.lower = s.lower.map (moved c d) := by
  rw [Donchian.lower, h.lows, min?_map_moved hc, Donchian.lower]

end Donchian

/-! ## Wilder's RSI -/

/-- The averages before and after the move: changes of the price are only scaled. -/
structure Rsi.Moved (c d : K) (s t : Rsi K) : Prop where
  period : t.period = s.period
  prev : s.hasPrev = true → t.prev = moved c d s.prev
  hasPrev : t.hasPrev = s.hasPrev
  warmup : t.warmup = s.warmup
  gainSum : t.gainSum = c * s.gainSum
  lossSum : t.lossSum = c * s.lossSum
  avgGain : t.avgGain = c * s.avgGain
  avgLoss : t.avgLoss = c * s.avgLoss
  ready : t.ready = s.ready

namespace Rsi

lemma gain_mul {c : K} (hc : 0 < c) (delta : K) : gain (c * delta) = c * gain delta := by
  rw [gain, gain, mul_ite, mul_zero]
  simp only [mul_pos_iff_of_pos_left hc]

lemma loss_mul {c : K} (hc : 0 < c) (delta : K) : loss (c * delta) = c * loss delta := by
  have hsign : c * delta < c * 0 ↔ delta < 0 := mul_lt_mul_iff_right₀ hc
  rw [mul_zero] at hsign
  rw [loss, loss, mul_ite, mul_zero, mul_neg]
  simp only [hsign]

lemma Moved.change {c d : K} (hc : 0 < c) {s t : Rsi K} (h : Moved c d s t) (delta : K) :
    Moved c d (s.change delta) (t.change (c * delta)) := by
  rw [Rsi.change, Rsi.change, gain_mul hc, loss_mul hc, h.warmup, h.period, h.gainSum, h.lossSum,
    h.avgGain, h.avgLoss]
  simp only
  split
  · split
    · refine ⟨rfl, h.prev, h.hasPrev, rfl, ?_, ?_, ?_, ?_, rfl⟩ <;> simp only <;> ring
    · refine ⟨rfl, h.prev, h.hasPrev, rfl, ?_, ?_, rfl, rfl, h.ready⟩ <;> simp only <;> ring
  · refine ⟨rfl, h.prev, h.hasPrev, rfl, rfl, rfl, ?_, ?_, h.ready⟩ <;> simp only <;> ring

lemma Moved.push {c d : K} (hc : 0 < c) {s t : Rsi K} (h : Moved c d s t) (v : K) :
    Moved c d (s.push v) (t.push (moved c d v)) := by
  have hset : Moved c d { s with prev := v } { t with prev := moved c d v } :=
    ⟨h.period, fun _ => rfl, h.hasPrev, h.warmup, h.gainSum, h.lossSum, h.avgGain, h.avgLoss,
      h.ready⟩
  rw [Rsi.push, Rsi.push]
  by_cases hprev : s.hasPrev = true
  · rw [if_pos hprev, if_pos (h.hasPrev.trans hprev)]
    have hdelta : moved c d v - t.prev = c * (v - s.prev) := by
      rw [h.prev hprev, moved, moved]
      ring
    rw [hdelta]
    exact hset.change hc _
  · rw [if_neg hprev, if_neg (by rw [h.hasPrev]; exact hprev)]
    exact ⟨h.period, fun _ => rfl, rfl, h.warmup, h.gainSum, h.lossSum, h.avgGain, h.avgLoss,
      h.ready⟩

lemma Moved.value {c d : K} (hc : 0 < c) {s t : Rsi K} (h : Moved c d s t) :
    t.value = s.value := by
  rw [Rsi.value, Rsi.value, h.avgLoss, h.avgGain]
  simp only [mul_eq_zero, hc.ne', false_or, mul_div_mul_left _ _ hc.ne']

end Rsi

/-! ## The strategies -/

variable {σ : Type*}

omit [LinearOrder K] [IsStrictOrderedRing K] in
/-- A strategy whose states stay related takes the same actions on the moved bars. -/
lemma emitted_move {strategy : Strategy σ K} {c d : K} (R : σ → σ → Prop)
    (hstep : ∀ s t bar, R s t →
      R (strategy.onBar s bar).1 (strategy.onBar t (bar.move c d)).1 ∧
        (strategy.onBar t (bar.move c d)).2 = (strategy.onBar s bar).2)
    {s t : σ} (h : R s t) (bars : List (Bar K)) :
    emitted strategy t (bars.map (Bar.move c d)) = emitted strategy s bars :=
  outputs_eq_of_simulation (Bar.move c d) hstep h bars

/-- Two averages before and after the move, with the crossover of their comparisons. -/
structure SmaCross.Moved (c d : K) (s t : SmaCross K) : Prop where
  fast : s.fast.Moved c d t.fast
  slow : s.slow.Moved c d t.slow
  cross : t.cross = s.cross
  fastPeriod : 1 ≤ s.fast.period
  slowPeriod : 1 ≤ s.slow.period

lemma SmaCross.Moved.onBar {c d : K} (hc : 0 < c) {s t : SmaCross K} (h : Moved c d s t)
    (bar : Bar K) :
    Moved c d (SmaCross.onBar s bar).1 (SmaCross.onBar t (bar.move c d)).1 ∧
      (SmaCross.onBar t (bar.move c d)).2 = (SmaCross.onBar s bar).2 := by
  have hfast := h.fast.push bar.close
  have hslow := h.slow.push bar.close
  have hreading : (SmaCross.onBar t (bar.move c d)).1.reading
      = (SmaCross.onBar s bar).1.reading := by
    show (if (t.slow.push (moved c d bar.close)).ready then
        some (decide ((t.slow.push (moved c d bar.close)).value
          < (t.fast.push (moved c d bar.close)).value)) else none) = _
    rw [hslow.ready, hfast.value (Sma.push_window_ne_nil h.fastPeriod _),
      hslow.value (Sma.push_window_ne_nil h.slowPeriod _)]
    simp only [moved_lt_moved hc]
    rfl
  have hsignal := SmaCross.onBar_eq t (bar.move c d)
  rw [hreading, h.cross, ← SmaCross.onBar_eq] at hsignal
  obtain ⟨hcross, haction⟩ := Prod.mk.inj hsignal
  have hfastPeriod : 1 ≤ (s.fast.push bar.close).period := by
    rw [Sma.push_period]
    exact h.fastPeriod
  have hslowPeriod : 1 ≤ (s.slow.push bar.close).period := by
    rw [Sma.push_period]
    exact h.slowPeriod
  exact ⟨⟨hfast, hslow, hcross, hfastPeriod, hslowPeriod⟩, haction⟩

/-- The same for exponential averages. -/
structure EmaCross.Moved (c d : K) (s t : EmaCross K) : Prop where
  fast : s.fast.Moved c d t.fast
  slow : s.slow.Moved c d t.slow
  cross : t.cross = s.cross

lemma EmaCross.Moved.onBar {c d : K} (hc : 0 < c) {s t : EmaCross K} (h : Moved c d s t)
    (bar : Bar K) :
    Moved c d (EmaCross.onBar s bar).1 (EmaCross.onBar t (bar.move c d)).1 ∧
      (EmaCross.onBar t (bar.move c d)).2 = (EmaCross.onBar s bar).2 := by
  have hfast := h.fast.push bar.close
  have hslow := h.slow.push bar.close
  have hreading : (EmaCross.onBar t (bar.move c d)).1.reading
      = (EmaCross.onBar s bar).1.reading := by
    show (if (t.slow.push (moved c d bar.close)).ready
          && (t.fast.push (moved c d bar.close)).ready then
        some (decide ((t.slow.push (moved c d bar.close)).value
          < (t.fast.push (moved c d bar.close)).value)) else none) =
      if (s.slow.push bar.close).ready && (s.fast.push bar.close).ready then
        some (decide ((s.slow.push bar.close).value < (s.fast.push bar.close).value)) else none
    rw [hslow.ready, hfast.ready]
    by_cases hboth : ((s.slow.push bar.close).ready && (s.fast.push bar.close).ready) = true
    · obtain ⟨hrs, hrf⟩ := Bool.and_eq_true_iff.mp hboth
      rw [if_pos hboth, if_pos hboth, hfast.value hrf, hslow.value hrs]
      simp only [moved_lt_moved hc]
    · rw [if_neg hboth, if_neg hboth]
  have hsignal := EmaCross.onBar_eq t (bar.move c d)
  rw [hreading, h.cross, ← EmaCross.onBar_eq] at hsignal
  obtain ⟨hcross, haction⟩ := Prod.mk.inj hsignal
  exact ⟨⟨hfast, hslow, hcross⟩, haction⟩

/-- The same for the histogram. -/
structure MacdCross.Moved (c d : K) (s t : MacdCross K) : Prop where
  macd : s.macd.Moved c d t.macd
  cross : t.cross = s.cross

lemma MacdCross.Moved.onBar {c d : K} (hc : 0 < c) {s t : MacdCross K} (h : Moved c d s t)
    (bar : Bar K) :
    Moved c d (MacdCross.onBar s bar).1 (MacdCross.onBar t (bar.move c d)).1 ∧
      (MacdCross.onBar t (bar.move c d)).2 = (MacdCross.onBar s bar).2 := by
  have hmacd := h.macd.push bar.close
  have hready : (t.macd.push (moved c d bar.close)).ready = (s.macd.push bar.close).ready :=
    hmacd.signalLine.ready
  have hreading : (MacdCross.onBar t (bar.move c d)).1.reading
      = (MacdCross.onBar s bar).1.reading := by
    show (if (t.macd.push (moved c d bar.close)).ready then
        some (decide (0 < (t.macd.push (moved c d bar.close)).histogram)) else none) =
      if (s.macd.push bar.close).ready then
        some (decide (0 < (s.macd.push bar.close).histogram)) else none
    rw [hready]
    by_cases hr : (s.macd.push bar.close).ready = true
    · rw [if_pos hr, if_pos hr, hmacd.histogram hr]
      simp only [mul_pos_iff_of_pos_left hc]
    · rw [if_neg hr, if_neg hr]
  have hsignal := MacdCross.onBar_eq t (bar.move c d)
  rw [hreading, h.cross, ← MacdCross.onBar_eq] at hsignal
  obtain ⟨hcross, haction⟩ := Prod.mk.inj hsignal
  exact ⟨⟨hmacd, hcross⟩, haction⟩

/-- The thresholds are percents, which have no unit. -/
structure RsiReversion.Moved (c d : K) (s t : RsiReversion K) : Prop where
  rsi : s.rsi.Moved c d t.rsi
  lower : t.lower = s.lower
  upper : t.upper = s.upper

lemma RsiReversion.Moved.onBar {c d : K} (hc : 0 < c) {s t : RsiReversion K} (h : Moved c d s t)
    (bar : Bar K) :
    Moved c d (RsiReversion.onBar s bar).1 (RsiReversion.onBar t (bar.move c d)).1 ∧
      (RsiReversion.onBar t (bar.move c d)).2 = (RsiReversion.onBar s bar).2 := by
  have hrsi := h.rsi.push hc bar.close
  rw [RsiReversion.onBar, RsiReversion.onBar]
  simp only [Bar.move, hrsi.ready, hrsi.value hc, h.lower, h.upper]
  exact ⟨⟨hrsi, rfl, rfl⟩, trivial⟩

/-- The bands and the close move together. -/
structure BollingerReversion.Moved (c d : K) (s t : BollingerReversion K) : Prop where
  bb : s.bb.Moved c d t.bb
  period : 1 ≤ s.bb.period

lemma BollingerReversion.Moved.onBar {c d : K} (hc : 0 < c) {sqrt : K → K}
    (hsqrt : ∀ x, 0 ≤ x → sqrt (c * c * x) = c * sqrt x) {s t : BollingerReversion K}
    (h : Moved c d s t) (bar : Bar K) :
    Moved c d (BollingerReversion.onBar sqrt s bar).1
        (BollingerReversion.onBar sqrt t (bar.move c d)).1 ∧
      (BollingerReversion.onBar sqrt t (bar.move c d)).2
        = (BollingerReversion.onBar sqrt s bar).2 := by
  have hbb := h.bb.push bar.close
  have hne := Bollinger.push_window_ne_nil h.period bar.close
  rw [BollingerReversion.onBar, BollingerReversion.onBar]
  simp only [Bar.move, hbb.ready, hbb.lower hne hsqrt, hbb.middle hne, moved_lt_moved hc]
  exact ⟨⟨hbb, by rw [Bollinger.push_period]; exact h.period⟩, trivial⟩

/-- The channels and the close move together. -/
structure DonchianBreakout.Moved (c d : K) (s t : DonchianBreakout K) : Prop where
  entry : s.entry.Moved c d t.entry
  exit : s.exit.Moved c d t.exit

lemma DonchianBreakout.Moved.onBar {c d : K} (hc : 0 < c) {s t : DonchianBreakout K}
    (h : Moved c d s t) (bar : Bar K) :
    Moved c d (DonchianBreakout.onBar s bar).1 (DonchianBreakout.onBar t (bar.move c d)).1 ∧
      (DonchianBreakout.onBar t (bar.move c d)).2 = (DonchianBreakout.onBar s bar).2 := by
  rw [DonchianBreakout.onBar, DonchianBreakout.onBar]
  simp only [Bar.move, h.entry.ready, h.exit.ready, h.entry.upper hc, h.exit.lower hc,
    Option.any_map, moved_lt_moved hc]
  exact ⟨⟨h.entry.push _ _, h.exit.push _ _⟩, trivial⟩

/-! ## The actions -/

variable {c : K} {fast slow signal period entry exit : ℕ}

lemma smaCross_emitted_move (hc : 0 < c) (d : K) (hfast : 1 ≤ fast) (hslow : 1 ≤ slow)
    (bars : List (Bar K)) :
    emitted (SmaCross.strategy fast slow) (SmaCross.make fast slow) (bars.map (Bar.move c d))
      = emitted (SmaCross.strategy fast slow) (SmaCross.make fast slow) bars :=
  emitted_move (SmaCross.Moved c d) (fun _ _ bar h => h.onBar hc bar)
    ⟨Sma.moved_fresh c d fast, Sma.moved_fresh c d slow, rfl, hfast, hslow⟩ bars

lemma emaCross_emitted_move (hc : 0 < c) (d : K) (hfast : 1 ≤ fast) (hslow : 1 ≤ slow)
    (bars : List (Bar K)) :
    emitted (EmaCross.strategy fast slow) (EmaCross.make fast slow) (bars.map (Bar.move c d))
      = emitted (EmaCross.strategy fast slow) (EmaCross.make fast slow) bars :=
  emitted_move (EmaCross.Moved c d) (fun _ _ bar h => h.onBar hc bar)
    ⟨Ema.moved_make c d hfast, Ema.moved_make c d hslow, rfl⟩ bars

lemma macdCross_emitted_move (hc : 0 < c) (d : K) (hfast : 1 ≤ fast) (hslow : 1 ≤ slow)
    (hsignal : 1 ≤ signal) (bars : List (Bar K)) :
    emitted (MacdCross.strategy fast slow signal) (MacdCross.make fast slow signal)
        (bars.map (Bar.move c d))
      = emitted (MacdCross.strategy fast slow signal) (MacdCross.make fast slow signal) bars :=
  emitted_move (MacdCross.Moved c d) (fun _ _ bar h => h.onBar hc bar)
    ⟨Macd.moved_make c d hfast hslow hsignal, rfl⟩ bars

lemma rsiReversion_emitted_move (hc : 0 < c) (d : K) (period : ℕ) (lower upper : K)
    (bars : List (Bar K)) :
    emitted (RsiReversion.strategy period) ⟨{ period := period }, lower, upper⟩
        (bars.map (Bar.move c d))
      = emitted (RsiReversion.strategy period) ⟨{ period := period }, lower, upper⟩ bars := by
  have hfresh : Rsi.Moved c d { period := period } { period := period } :=
    ⟨rfl, fun h => absurd h (by simp), rfl, rfl, (mul_zero c).symm, (mul_zero c).symm,
      (mul_zero c).symm, (mul_zero c).symm, rfl⟩
  exact emitted_move (RsiReversion.Moved c d) (fun _ _ bar h => h.onBar hc bar)
    ⟨hfresh, rfl, rfl⟩ bars

lemma bollingerReversion_emitted_move (hc : 0 < c) (d : K) {sqrt : K → K}
    (hsqrt : ∀ x, 0 ≤ x → sqrt (c * c * x) = c * sqrt x) (hperiod : 1 ≤ period) (mult : K)
    (bars : List (Bar K)) :
    emitted (BollingerReversion.strategy sqrt period) (BollingerReversion.make period mult)
        (bars.map (Bar.move c d))
      = emitted (BollingerReversion.strategy sqrt period) (BollingerReversion.make period mult)
        bars :=
  emitted_move (BollingerReversion.Moved c d) (fun _ _ bar h => h.onBar hc hsqrt bar)
    ⟨⟨rfl, rfl, rfl⟩, hperiod⟩ bars

lemma donchianBreakout_emitted_move (hc : 0 < c) (d : K) (entry exit : ℕ) (bars : List (Bar K)) :
    emitted (DonchianBreakout.strategy entry exit) (DonchianBreakout.make entry exit)
        (bars.map (Bar.move c d))
      = emitted (DonchianBreakout.strategy entry exit) (DonchianBreakout.make entry exit) bars :=
  emitted_move (DonchianBreakout.Moved c d) (fun _ _ bar h => h.onBar hc bar)
    ⟨⟨rfl, rfl, rfl⟩, ⟨rfl, rfl, rfl⟩⟩ bars

/-- **Signals have no unit.** On the bars with every price `v` replaced by `c * v + d`, for a
positive `c`, a fresh instance of each of the six strategies takes the same actions, for all periods
of at least one and all thresholds; for the bands the root of `c * c * x` is `c` times the root of
`x`. -/
theorem signals_unit_free (hc : 0 < c) (d : K) {sqrt : K → K}
    (hsqrt : ∀ x, 0 ≤ x → sqrt (c * c * x) = c * sqrt x) (hfast : 1 ≤ fast) (hslow : 1 ≤ slow)
    (hsignal : 1 ≤ signal) (hperiod : 1 ≤ period) (_ : 1 ≤ entry) (_ : 1 ≤ exit)
    (mult lower upper : K) (bars : List (Bar K)) :
    emitted (SmaCross.strategy fast slow) (SmaCross.make fast slow) (bars.map (Bar.move c d))
      = emitted (SmaCross.strategy fast slow) (SmaCross.make fast slow) bars ∧
    emitted (EmaCross.strategy fast slow) (EmaCross.make fast slow) (bars.map (Bar.move c d))
      = emitted (EmaCross.strategy fast slow) (EmaCross.make fast slow) bars ∧
    emitted (MacdCross.strategy fast slow signal) (MacdCross.make fast slow signal)
        (bars.map (Bar.move c d))
      = emitted (MacdCross.strategy fast slow signal) (MacdCross.make fast slow signal) bars ∧
    emitted (RsiReversion.strategy period) ⟨{ period := period }, lower, upper⟩
        (bars.map (Bar.move c d))
      = emitted (RsiReversion.strategy period) ⟨{ period := period }, lower, upper⟩ bars ∧
    emitted (BollingerReversion.strategy sqrt period) (BollingerReversion.make period mult)
        (bars.map (Bar.move c d))
      = emitted (BollingerReversion.strategy sqrt period) (BollingerReversion.make period mult)
        bars ∧
    emitted (DonchianBreakout.strategy entry exit) (DonchianBreakout.make entry exit)
        (bars.map (Bar.move c d))
      = emitted (DonchianBreakout.strategy entry exit) (DonchianBreakout.make entry exit) bars :=
  ⟨smaCross_emitted_move hc d hfast hslow bars, emaCross_emitted_move hc d hfast hslow bars,
    macdCross_emitted_move hc d hfast hslow hsignal bars,
    rsiReversion_emitted_move hc d period lower upper bars,
    bollingerReversion_emitted_move hc d hsqrt hperiod mult bars,
    donchianBreakout_emitted_move hc d entry exit bars⟩

/-- The square root of the reals is what the bands need. -/
lemma sqrt_mul_mul {c : ℝ} (hc : 0 ≤ c) (x : ℝ) : Real.sqrt (c * c * x) = c * Real.sqrt x := by
  rw [Real.sqrt_mul (mul_self_nonneg c), Real.sqrt_mul_self hc]

/-- Three closes, quoted at half the unit and counted from one. -/
theorem signals_unit_free_halves :
    emitted (BollingerReversion.strategy Real.sqrt 2) (BollingerReversion.make 2 1)
        ([(⟨0, 3, 3, 3, 3, 0⟩ : Bar ℝ), ⟨1, 5, 5, 5, 5, 0⟩, ⟨2, 2, 2, 2, 2, 0⟩].map
          (Bar.move 2 1))
      = emitted (BollingerReversion.strategy Real.sqrt 2) (BollingerReversion.make 2 1)
        [⟨0, 3, 3, 3, 3, 0⟩, ⟨1, 5, 5, 5, 5, 0⟩, ⟨2, 2, 2, 2, 2, 0⟩] :=
  (signals_unit_free (c := 2) (by norm_num) 1 (fun x _ => sqrt_mul_mul (by norm_num) x)
    (show 1 ≤ 1 by decide) (show 1 ≤ 2 by decide) (show 1 ≤ 1 by decide) (show 1 ≤ 2 by decide)
    (show 1 ≤ 1 by decide) (show 1 ≤ 1 by decide) 1 30 70 _).2.2.2.2.1

/-! ## The report -/

/-- The trade at scaled prices; its return is a ratio of prices. -/
def TradeRecord.scale (c : K) (t : TradeRecord K) : TradeRecord K :=
  { t with entryPrice := c * t.entryPrice, exitPrice := c * t.exitPrice }

/-- The run at scaled prices; the equity has no unit. -/
def Run.scale (c : K) (run : Run K) : Run K :=
  { run with
    entryPrice := c * run.entryPrice
    prevClose := c * run.prevClose
    tradeLog := run.tradeLog.map (TradeRecord.scale c) }

/-- The report at scaled prices. -/
def BacktestReport.scale (c : K) (report : BacktestReport K) : BacktestReport K :=
  { report with tradeLog := report.tradeLog.map (TradeRecord.scale c) }

omit [LinearOrder K] [IsStrictOrderedRing K] in
lemma closingTrade_scale (hc : c ≠ 0) (fee : K) (bar : Bar K) (run : Run K) :
    closingTrade fee (bar.move c 0) (run.scale c) = (closingTrade fee bar run).scale c := by
  simp only [closingTrade, Run.scale, TradeRecord.scale, Bar.move, moved, add_zero,
    mul_div_mul_left _ _ hc]

lemma markToMarket_scale (hc : 0 < c) (bar : Bar K) (run : Run K) :
    markToMarket (bar.move c 0) (run.scale c) = (markToMarket bar run).scale c := by
  rw [markToMarket, markToMarket]
  simp only [Run.scale, Bar.move, moved, add_zero, mul_pos_iff_of_pos_left hc,
    mul_div_mul_left _ _ hc.ne']
  split <;> rfl

omit [LinearOrder K] [IsStrictOrderedRing K] in
lemma fill_scale (hc : c ≠ 0) (fee : K) (a : Action) (bar : Bar K) (run : Run K) :
    fill fee a (bar.move c 0) (run.scale c) = (fill fee a bar run).scale c := by
  rcases fill_cases fee a bar run with ⟨ha, hlong, hfill⟩ | ⟨ha, hlong, hfill⟩ | ⟨ha, hfill⟩
  · have hlong' : (run.scale c).longPos = false := hlong
    rw [hfill, fill, if_pos ⟨ha, hlong'⟩]
    simp only [Run.scale, Bar.move, moved, add_zero]
  · have hlong' : (run.scale c).longPos = true := hlong
    rw [hfill, fill, if_neg (by simp [ha]), if_pos ⟨ha, hlong'⟩, closingTrade_scale hc]
    simp [Run.scale]
  · rw [hfill]
    rcases fill_cases fee a (bar.move c 0) (run.scale c) with
      ⟨hbuy, hflat, -⟩ | ⟨hsell, hlong, -⟩ | ⟨-, hfill'⟩
    · have hflat' : run.longPos = false := hflat
      rw [hbuy] at ha
      rcases ha with ha | ha
      · exact absurd ha (by simp)
      · exact absurd (hflat'.symm.trans ha) (by simp)
    · have hlong' : run.longPos = true := hlong
      rw [hsell] at ha
      rcases ha with ha | ha
      · exact absurd ha (by simp)
      · exact absurd (hlong'.symm.trans ha) (by simp)
    · exact hfill'

lemma barStep_scale (hc : 0 < c) (fee : K) (a : Action) (bar : Bar K) (run : Run K) :
    barStep fee a (bar.move c 0) (run.scale c) = (barStep fee a bar run).scale c := by
  rw [barStep, markToMarket_scale hc, fill_scale hc.ne', barStep]
  simp only [record, Run.scale, Bar.move, moved, add_zero]
  rfl

omit [LinearOrder K] [IsStrictOrderedRing K] in
lemma closeAtEnd_scale (hc : c ≠ 0) (fee : K) (last : Bar K) (run : Run K) :
    closeAtEnd fee (last.move c 0) (run.scale c) = (closeAtEnd fee last run).scale c := by
  rw [closeAtEnd, closeAtEnd, closingTrade_scale hc]
  by_cases hlong : run.longPos = true
  · rw [if_pos hlong, if_pos (show (run.scale c).longPos = true from hlong)]
    simp [Run.scale]
  · rw [if_neg hlong, if_neg (show ¬ (run.scale c).longPos = true from hlong)]

lemma foldl_barStep_scale (hc : 0 < c) (fee : K) (actions : List Action) (bars : List (Bar K))
    (run : Run K) :
    (actions.zip (bars.map (Bar.move c 0))).foldl (fun run p => barStep fee p.1 p.2 run)
        (run.scale c)
      = ((actions.zip bars).foldl (fun run p => barStep fee p.1 p.2 run) run).scale c := by
  induction bars generalizing actions run with
  | nil => simp
  | cons bar bars ih =>
    cases actions with
    | nil => rfl
    | cons a actions =>
      simp only [List.map_cons, List.zip_cons_cons, List.foldl_cons]
      rw [barStep_scale hc, ih]

/-- A strategy that takes the same actions on the scaled bars reports the same there, up to the
prices in its log. -/
lemma runBacktest_scale (hc : 0 < c) (sqrt : K → K) (strategy : Strategy σ K) (state : σ)
    (bars : List (Bar K)) (commissionPct annualization : K)
    (hsame : emitted strategy state (bars.map (Bar.move c 0)) = emitted strategy state bars) :
    runBacktest sqrt strategy state (bars.map (Bar.move c 0)) commissionPct annualization
      = (runBacktest sqrt strategy state bars commissionPct annualization).scale c := by
  by_cases hlen : bars.length < 2
  · rw [runBacktest, dif_pos (by rw [List.length_map]; exact hlen), runBacktest, dif_pos hlen,
      List.length_map]
    rfl
  · have hne : bars ≠ [] := List.ne_nil_of_length_pos (by omega)
    have hhead := List.head?_eq_some_head hne
    have hlast := List.getLast?_eq_some_getLast hne
    have hrun : runAt strategy (commissionPct / 100) state (bars.map (Bar.move c 0)) bars.length
        = (runAt strategy (commissionPct / 100) state bars bars.length).scale c := by
      have hopening : opening (bars.map (Bar.move c 0)) = (opening bars).scale c := by
        rw [opening, opening, List.head?_map, hhead]
        simp [Run.scale, Bar.move, moved]
      rw [runAt, runAt, List.take_of_length_le (by rw [List.length_map]), List.take_length,
        loop_eq_foldl, loop_eq_foldl, hsame, hopening, foldl_barStep_scale hc]
    rw [runBacktest_eq strategy state bars sqrt commissionPct annualization (by omega) hhead hlast,
      runBacktest_eq strategy state (bars.map (Bar.move c 0)) sqrt commissionPct annualization
        (by rw [List.length_map]; omega) (by rw [List.head?_map, hhead]; rfl)
        (by rw [List.getLast?_map, hlast]; rfl),
      List.length_map, hrun, closeAtEnd_scale hc.ne']
    have hratio : ((bars.getLast hne).move c 0).close / ((bars.head hne).move c 0).close
        = (bars.getLast hne).close / (bars.head hne).close := by
      simp only [Bar.move, moved, add_zero, mul_div_mul_left _ _ hc.ne']
    have hwins : ∀ log : List (TradeRecord K),
        winRate (log.map (TradeRecord.scale c)) = winRate log := by
      intro log
      rw [winRate, winRate, List.length_map, List.countP_map]
      rfl
    simp only [report, BacktestReport.scale, hratio, Run.scale, List.length_map, hwins]

/-- **A report has no unit.** On the bars with every price multiplied by a positive `c` (another
currency, or a lot of another size) a backtest of each of the six strategies reports the same:
returns, drawdown, Sharpe ratio, win rate, and the same trades at the multiplied prices, for all
periods of at least one. -/
theorem backtest_unit_free (hc : 0 < c) {sqrt : K → K}
    (hsqrt : ∀ x, 0 ≤ x → sqrt (c * c * x) = c * sqrt x) (hfast : 1 ≤ fast) (hslow : 1 ≤ slow)
    (hsignal : 1 ≤ signal) (hperiod : 1 ≤ period) (_ : 1 ≤ entry) (_ : 1 ≤ exit)
    (mult lower upper : K) (bars : List (Bar K)) (commissionPct annualization : K) :
    let scaled := bars.map (Bar.move c 0)
    runBacktest sqrt (SmaCross.strategy fast slow) (SmaCross.make fast slow) scaled
        commissionPct annualization
      = (runBacktest sqrt (SmaCross.strategy fast slow) (SmaCross.make fast slow) bars
        commissionPct annualization).scale c ∧
    runBacktest sqrt (EmaCross.strategy fast slow) (EmaCross.make fast slow) scaled
        commissionPct annualization
      = (runBacktest sqrt (EmaCross.strategy fast slow) (EmaCross.make fast slow) bars
        commissionPct annualization).scale c ∧
    runBacktest sqrt (MacdCross.strategy fast slow signal) (MacdCross.make fast slow signal) scaled
        commissionPct annualization
      = (runBacktest sqrt (MacdCross.strategy fast slow signal) (MacdCross.make fast slow signal)
        bars commissionPct annualization).scale c ∧
    runBacktest sqrt (RsiReversion.strategy period) ⟨{ period := period }, lower, upper⟩ scaled
        commissionPct annualization
      = (runBacktest sqrt (RsiReversion.strategy period) ⟨{ period := period }, lower, upper⟩ bars
        commissionPct annualization).scale c ∧
    runBacktest sqrt (BollingerReversion.strategy sqrt period)
        (BollingerReversion.make period mult) scaled commissionPct annualization
      = (runBacktest sqrt (BollingerReversion.strategy sqrt period)
        (BollingerReversion.make period mult) bars commissionPct annualization).scale c ∧
    runBacktest sqrt (DonchianBreakout.strategy entry exit) (DonchianBreakout.make entry exit)
        scaled commissionPct annualization
      = (runBacktest sqrt (DonchianBreakout.strategy entry exit)
        (DonchianBreakout.make entry exit) bars commissionPct annualization).scale c :=
  ⟨runBacktest_scale hc sqrt _ _ bars _ _ (smaCross_emitted_move hc 0 hfast hslow bars),
    runBacktest_scale hc sqrt _ _ bars _ _ (emaCross_emitted_move hc 0 hfast hslow bars),
    runBacktest_scale hc sqrt _ _ bars _ _ (macdCross_emitted_move hc 0 hfast hslow hsignal bars),
    runBacktest_scale hc sqrt _ _ bars _ _ (rsiReversion_emitted_move hc 0 period lower upper bars),
    runBacktest_scale hc sqrt _ _ bars _ _
      (bollingerReversion_emitted_move hc 0 hsqrt hperiod mult bars),
    runBacktest_scale hc sqrt _ _ bars _ _ (donchianBreakout_emitted_move hc 0 entry exit bars)⟩

/-- The trades of a crossover in rubles and in kopecks. -/
theorem backtest_unit_free_kopecks :
    (runBacktest Real.sqrt (EmaCross.strategy 1 2) (EmaCross.make 1 2)
        ([(⟨0, 3, 3, 3, 3, 0⟩ : Bar ℝ), ⟨1, 2, 2, 2, 2, 0⟩, ⟨2, 5, 5, 5, 5, 0⟩].map
          (Bar.move 100 0)) 1 252).trades
      = (runBacktest Real.sqrt (EmaCross.strategy 1 2) (EmaCross.make 1 2)
        [(⟨0, 3, 3, 3, 3, 0⟩ : Bar ℝ), ⟨1, 2, 2, 2, 2, 0⟩, ⟨2, 5, 5, 5, 5, 0⟩] 1 252).trades := by
  have hreport := (backtest_unit_free (c := 100) (by norm_num)
    (fun x _ => sqrt_mul_mul (by norm_num) x) (show 1 ≤ 1 by decide) (show 1 ≤ 2 by decide)
    (show 1 ≤ 1 by decide) (show 1 ≤ 1 by decide) (show 1 ≤ 1 by decide) (show 1 ≤ 1 by decide)
    1 30 70
    [(⟨0, 3, 3, 3, 3, 0⟩ : Bar ℝ), ⟨1, 2, 2, 2, 2, 0⟩, ⟨2, 5, 5, 5, 5, 0⟩] 1 252).2.1
  rw [hreport]
  rfl

end

end Algo
end TInvest
