import TInvest.Lib.Drawdown
import TInvest.Algo.Runs
import TInvest.Algo.BacktestTheorems

/-!
# The equity curve

The points of the curve are the equities at the ends of the bars, with `1` in front. The loop
keeps its peak and its largest drawdown in one pass; the close of an open position after the last
bar is not a point of the curve.

* `curve_metrics` — peak and drawdown of the loop are those of the curve so far;
* `maxDrawdown_of_curve` — the reported drawdown is the one of the curve;
* `forced_close_iff` — the close at the end of the data reports what a sell on the last bar
  reports exactly when there is no commission.
-/

namespace TInvest
namespace Algo

open Lib.Drawdown

variable {K : Type*} {σ : Type*} [Field K] [LinearOrder K]

/-- The equity at the end of bar `i`; `1` before the first. -/
def equityCurve (strategy : Strategy σ K) (fee : K) (state : σ) (bars : List (Bar K)) (i : ℕ) : K :=
  (runAt strategy fee state bars i).equity

/-- The metrics after a bar, from its equity. -/
lemma barStep_metrics (fee : K) (a : Action) (bar : Bar K) (run : Run K) :
    (barStep fee a bar run).prevClose = bar.close ∧
      (barStep fee a bar run).peak = max run.peak (barStep fee a bar run).equity ∧
      (barStep fee a bar run).maxDrawdownPct = max run.maxDrawdownPct
        (((barStep fee a bar run).peak - (barStep fee a bar run).equity)
          / (barStep fee a bar run).peak * 100) ∧
      (barStep fee a bar run).barReturns =
        if 0 < run.equity then
          run.barReturns ++ [(barStep fee a bar run).equity / run.equity - 1]
        else run.barReturns := by
  obtain ⟨equity, hmark⟩ := markToMarket_cases bar run
  have hfill := fill_cases fee a bar (markToMarket bar run)
  rw [barStep]
  rw [hmark] at hfill ⊢
  rcases hfill with ⟨-, -, hfill⟩ | ⟨-, -, hfill⟩ | ⟨-, hfill⟩ <;> rw [hfill] <;>
    exact ⟨rfl, rfl, rfl, rfl⟩

/-- The equity after a bar: marked to market, less a fee if the position changed. -/
lemma barStep_equity (fee : K) (a : Action) (bar : Bar K) (run : Run K) :
    (barStep fee a bar run).equity = (markToMarket bar run).equity ∨
      (barStep fee a bar run).equity = (markToMarket bar run).equity * (1 - fee) := by
  rcases fill_cases fee a bar (markToMarket bar run) with
    ⟨-, -, hfill⟩ | ⟨-, -, hfill⟩ | ⟨-, hfill⟩ <;> rw [barStep, hfill]
  · exact Or.inr rfl
  · exact Or.inr rfl
  · exact Or.inl rfl

variable [IsStrictOrderedRing K]

lemma markToMarket_equity_pos {bar : Bar K} {run : Run K} (hclose : 0 < bar.close)
    (hequity : 0 < run.equity) : 0 < (markToMarket bar run).equity := by
  rw [markToMarket]
  split
  · next hlong =>
    have hprev := hlong.2
    show 0 < run.equity * (bar.close / run.prevClose)
    positivity
  · exact hequity

lemma barStep_equity_pos {fee : K} (hfee : fee < 1) {a : Action} {bar : Bar K} {run : Run K}
    (hclose : 0 < bar.close) (hequity : 0 < run.equity) : 0 < (barStep fee a bar run).equity := by
  have hmark := markToMarket_equity_pos hclose hequity
  rcases barStep_equity fee a bar run with heq | heq
  · rw [heq]
    exact hmark
  · rw [heq]
    exact mul_pos hmark (sub_pos.mpr hfee)

/-! ## The drawdown -/

section

variable (strategy : Strategy σ K) {fee : K} (state : σ) {bars : List (Bar K)}

lemma equityCurve_pos (hfee : fee < 1) (hclose : ∀ bar ∈ bars, 0 < bar.close) :
    ∀ i ≤ bars.length, 0 < equityCurve strategy fee state bars i := by
  refine runAt_induction strategy fee state bars zero_lt_one ?_
  intro i a bar hbar _ hstep hpos
  rw [equityCurve, hstep]
  exact barStep_equity_pos hfee (hclose bar (List.mem_of_getElem? hbar)) hpos

/-- Peak and drawdown of the loop are those of the curve so far. -/
lemma curve_metrics (hfee : fee < 1) (hclose : ∀ bar ∈ bars, 0 < bar.close) :
    ∀ i ≤ bars.length,
      IsPeak (equityCurve strategy fee state bars) i (runAt strategy fee state bars i).peak ∧
      IsMaxDrawdown (equityCurve strategy fee state bars) i
        (runAt strategy fee state bars i).maxDrawdownPct := by
  have hpos := equityCurve_pos strategy state hfee hclose
  refine runAt_induction strategy fee state bars ⟨isPeak_zero _, isMaxDrawdown_zero _⟩ ?_
  intro i a bar hbar _ hstep ⟨hpeak, hdraw⟩
  have hi : i + 1 ≤ bars.length := (List.getElem?_eq_some_iff.mp hbar).1
  obtain ⟨-, hp, hd, -⟩ := barStep_metrics fee a bar (runAt strategy fee state bars i)
  rw [← hstep] at hp hd
  have hpeak' : IsPeak (equityCurve strategy fee state bars) (i + 1)
      (runAt strategy fee state bars (i + 1)).peak := by
    rw [hp]
    exact hpeak.succ
  refine ⟨hpeak', ?_⟩
  have hfall : (runAt strategy fee state bars (i + 1)).maxDrawdownPct =
      max (runAt strategy fee state bars i).maxDrawdownPct
        (fall (runAt strategy fee state bars (i + 1)).peak
          (equityCurve strategy fee state bars (i + 1))) := by
    rw [hd, fall, equityCurve]
    congr 1
    ring
  rw [hfall]
  exact hdraw.succ hpeak' fun j hj => hpos j (hj.trans hi)

/-- A loss on the curve is not larger than its drawdown. -/
lemma loss_le_drawdown (hfee : fee < 1) (hclose : ∀ bar ∈ bars, 0 < bar.close) :
    ∀ i ≤ bars.length, -(runAt strategy fee state bars i).maxDrawdownPct
      ≤ ((runAt strategy fee state bars i).equity - 1) * 100 := by
  intro i hi
  have hdraw := (curve_metrics strategy state hfee hclose i hi).2
  have hfall : fall 1 (runAt strategy fee state bars i).equity
      ≤ (runAt strategy fee state bars i).maxDrawdownPct :=
    hdraw.2 ⟨0, i, Nat.zero_le i, le_rfl, rfl⟩
  rw [fall, div_one] at hfall
  linarith

omit [IsStrictOrderedRing K] [LinearOrder K] in
/-- The close after the last bar changes the equity and the log only. -/
lemma closeAtEnd_metrics (fee : K) (last : Bar K) (run : Run K) :
    (closeAtEnd fee last run).maxDrawdownPct = run.maxDrawdownPct ∧
      (closeAtEnd fee last run).barReturns = run.barReturns := by
  rw [closeAtEnd]
  split <;> exact ⟨rfl, rfl⟩

omit [IsStrictOrderedRing K] in
lemma runBacktest_maxDrawdownPct (sqrt : K → K) (commissionPct annualization : K)
    (hlen : 2 ≤ bars.length) :
    (runBacktest sqrt strategy state bars commissionPct annualization).maxDrawdownPct =
      (runAt strategy (commissionPct / 100) state bars bars.length).maxDrawdownPct := by
  have hne : bars ≠ [] := List.ne_nil_of_length_pos (by omega)
  rw [runBacktest_eq strategy state bars sqrt commissionPct annualization hlen
    (List.head?_eq_some_head hne) (List.getLast?_eq_some_getLast hne)]
  exact (closeAtEnd_metrics _ _ _).1

/-- **The maximum drawdown.** For any strategy, bars with positive closes and fee below one, every
point of the equity curve is positive; the reported drawdown is the maximum over all pairs of
points in order of the fall from the first to the second in percent of the first; it lies between
`0` and `100`, and is `0` exactly when the curve never falls. -/
theorem maxDrawdown_of_curve (sqrt : K → K) (commissionPct annualization : K)
    (hlen : 2 ≤ bars.length) (hclose : ∀ bar ∈ bars, 0 < bar.close)
    (hfee : commissionPct / 100 < 1) :
    equityCurve strategy (commissionPct / 100) state bars 0 = 1 ∧
    (∀ i ≤ bars.length, 0 < equityCurve strategy (commissionPct / 100) state bars i) ∧
    IsGreatest
      {x | ∃ i j, i ≤ j ∧ j ≤ bars.length ∧
        x = 100 * (equityCurve strategy (commissionPct / 100) state bars i
              - equityCurve strategy (commissionPct / 100) state bars j)
            / equityCurve strategy (commissionPct / 100) state bars i}
      (runBacktest sqrt strategy state bars commissionPct annualization).maxDrawdownPct ∧
    0 ≤ (runBacktest sqrt strategy state bars commissionPct annualization).maxDrawdownPct ∧
    (runBacktest sqrt strategy state bars commissionPct annualization).maxDrawdownPct < 100 ∧
    ((runBacktest sqrt strategy state bars commissionPct annualization).maxDrawdownPct = 0 ↔
      ∀ i j, i ≤ j → j ≤ bars.length →
        equityCurve strategy (commissionPct / 100) state bars i
          ≤ equityCurve strategy (commissionPct / 100) state bars j) := by
  have hpos := equityCurve_pos strategy state hfee hclose
  have hdraw := (curve_metrics strategy state hfee hclose bars.length le_rfl).2
  rw [runBacktest_maxDrawdownPct strategy state sqrt commissionPct annualization hlen]
  exact ⟨rfl, hpos, hdraw, hdraw.nonneg, hdraw.lt_hundred hpos, hdraw.eq_zero_iff hpos⟩

end

/-- A position that doubles and falls back. -/
theorem maxDrawdown_of_round_trip :
    (runBacktest Real.sqrt scripted [.buy] (makeBars [100, 200, 100]) 0 252).maxDrawdownPct
      < 100 := by
  have hclose : ∀ bar ∈ makeBars [100, 200, (100 : ℝ)], 0 < bar.close := by
    simp [makeBars]
  have hlen : 2 ≤ (makeBars [100, 200, (100 : ℝ)]).length := by
    simp [makeBars]
  exact (maxDrawdown_of_curve scripted [.buy] Real.sqrt 0 252 hlen hclose (by norm_num)).2.2.2.2.1

/-! ## The close at the end of the data -/

/-- The mean of the bar returns and their variance: what the Sharpe ratio is computed from. -/
def sharpeInputs (barReturns : List K) : K × K :=
  let mean := barReturns.sum / barReturns.length
  (mean, (barReturns.map fun r => (r - mean) * (r - mean)).sum / (barReturns.length - 1 : ℕ))

omit [IsStrictOrderedRing K] in
lemma sharpeRatio_eq (sqrt : K → K) (annualization : K) {barReturns : List K}
    (h : 1 < barReturns.length) :
    sharpeRatio sqrt annualization barReturns =
      if 0 < sqrt (sharpeInputs barReturns).2 then
        (sharpeInputs barReturns).1 / sqrt (sharpeInputs barReturns).2 * sqrt annualization
      else 0 := by
  rw [sharpeRatio, if_pos h]
  rfl

/-- The script with `last` on the last bar reports what the script with a sell there reports, the
Sharpe ratio through its inputs; and its loss is not larger than its drawdown. -/
def ClosesLikeSell (sqrt : K → K) (script : List Action) (last : Action) (bars : List (Bar K))
    (commissionPct annualization : K) : Prop :=
  let held := runBacktest sqrt scripted (script ++ [last]) bars commissionPct annualization
  let sold := runBacktest sqrt scripted (script ++ [.sell]) bars commissionPct annualization
  held.totalReturnPct = sold.totalReturnPct ∧ held.tradeLog = sold.tradeLog ∧
    held.trades = sold.trades ∧ held.winRatePct = sold.winRatePct ∧
    held.maxDrawdownPct = sold.maxDrawdownPct ∧
    sharpeInputs
        (runAt scripted (commissionPct / 100) (script ++ [last]) bars bars.length).barReturns =
      sharpeInputs
        (runAt scripted (commissionPct / 100) (script ++ [.sell]) bars bars.length).barReturns ∧
    -held.maxDrawdownPct ≤ held.totalReturnPct

omit [IsStrictOrderedRing K] in
/-- A long position on the last bar: the close after the loop and a sell book the same. -/
lemma barStep_hold_sell (fee : K) (bar : Bar K) {run : Run K} (hlong : run.longPos = true) :
    (barStep fee .hold bar run).equity = (markToMarket bar run).equity ∧
      (barStep fee .sell bar run).equity = (markToMarket bar run).equity * (1 - fee) ∧
      closeAtEnd fee bar (barStep fee .sell bar run) = barStep fee .sell bar run ∧
      (closeAtEnd fee bar (barStep fee .hold bar run)).equity =
        (markToMarket bar run).equity * (1 - fee) ∧
      (closeAtEnd fee bar (barStep fee .hold bar run)).tradeLog =
        (barStep fee .sell bar run).tradeLog := by
  obtain ⟨equity, hmark⟩ := markToMarket_cases bar run
  have hhold : (barStep fee .hold bar run).longPos = true := by
    rw [barStep_longPos]
    exact hlong
  have hsell : ¬ (barStep fee .sell bar run).longPos = true := by
    rw [barStep_longPos]
    simp [Action.apply]
  have hclose : closeAtEnd fee bar (barStep fee .sell bar run) = barStep fee .sell bar run := by
    rw [closeAtEnd, if_neg hsell]
  rw [hclose, closeAtEnd, if_pos hhold]
  simp only [barStep, hmark, fill, hlong, record, closingTrade]
  exact ⟨rfl, rfl, trivial, rfl, rfl⟩

/-- Two lists of returns that differ in the last one have different means. -/
lemma eq_of_sharpeInputs_concat {l : List K} {x y : K}
    (h : sharpeInputs (l ++ [x]) = sharpeInputs (l ++ [y])) : x = y := by
  have hmean := congrArg Prod.fst h
  simp only [sharpeInputs, List.sum_append, List.length_append, List.sum_singleton,
    List.length_singleton] at hmean
  have hlen : ((l.length + 1 : ℕ) : K) ≠ 0 := by
    rw [Nat.cast_ne_zero]
    omega
  rw [div_left_inj' hlen] at hmean
  exact add_left_cancel hmean

/-- The two report the same metrics exactly when a fill is free. -/
lemma metrics_hold_sell_iff (fee : K) {bar : Bar K} {run : Run K} (hlong : run.longPos = true)
    (hequity : 0 < run.equity) (hclose : 0 < bar.close) :
    ((barStep fee .hold bar run).maxDrawdownPct = (barStep fee .sell bar run).maxDrawdownPct ∧
      sharpeInputs (barStep fee .hold bar run).barReturns =
        sharpeInputs (barStep fee .sell bar run).barReturns) ↔ fee = 0 := by
  obtain ⟨hhold, hsell, -⟩ := barStep_hold_sell fee bar hlong
  obtain ⟨-, hpeak, hdraw, hreturns⟩ := barStep_metrics fee .hold bar run
  obtain ⟨-, hpeak', hdraw', hreturns'⟩ := barStep_metrics fee .sell bar run
  have hmark := markToMarket_equity_pos hclose hequity
  rw [if_pos hequity] at hreturns hreturns'
  constructor
  · intro ⟨_, hinputs⟩
    rw [hreturns, hreturns'] at hinputs
    have hlast := eq_of_sharpeInputs_concat hinputs
    rw [sub_left_inj, div_left_inj' hequity.ne', hhold, hsell] at hlast
    have hone : 1 - fee = 1 := mul_left_cancel₀ hmark.ne' (by rw [mul_one]; exact hlast.symm)
    linarith
  · intro hfree
    have hsame : (barStep fee .sell bar run).equity = (barStep fee .hold bar run).equity := by
      rw [hhold, hsell, hfree, sub_zero, mul_one]
    rw [hdraw, hdraw', hpeak, hpeak', hreturns, hreturns', hsame]
    exact ⟨rfl, rfl⟩

omit [IsStrictOrderedRing K] in
/-- A script with one action for each bar, up to its last. -/
lemma runAt_script_concat (fee : K) {script : List Action} {bars : List (Bar K)} {bar : Bar K}
    (hscript : script.length + 1 = bars.length) (hbar : bars[script.length]? = some bar)
    (a : Action) :
    runAt scripted fee (script ++ [a]) bars bars.length =
      barStep fee a bar (runAt scripted fee (script ++ [.hold]) bars script.length) := by
  have hemit : ∀ x : Action, emitted scripted (script ++ [x]) bars = script ++ [x] :=
    fun x => emitted_scripted (by simp [hscript])
  have ha : (emitted scripted (script ++ [a]) bars)[script.length]? = some a := by
    rw [hemit, List.getElem?_concat_length]
  have hcommon : runAt scripted fee (script ++ [a]) bars script.length =
      runAt scripted fee (script ++ [.hold]) bars script.length := by
    refine runAt_congr scripted fee _ bars scripted _ ?_
    rw [hemit, hemit, List.take_left', List.take_left'] <;> rfl
  rw [← hscript, runAt_succ scripted fee _ bars hbar ha, hcommon]

omit [IsStrictOrderedRing K] in
lemma runAt_script_longPos (fee : K) {script : List Action} {bars : List (Bar K)}
    (hscript : script.length + 1 = bars.length) (hlong : position script = true) :
    (runAt scripted fee (script ++ [.hold]) bars script.length).longPos = true := by
  have hemit : emitted scripted (script ++ [.hold]) bars = script ++ [.hold] :=
    emitted_scripted (by simp [hscript])
  rw [runAt_longPos _ _ _ _ _ (by omega), hemit, List.take_left' rfl]
  exact hlong

omit [IsStrictOrderedRing K] in
/-- On a long position every last action but a sell is a hold. -/
lemma runAt_script_not_sell (fee : K) {script : List Action} {bars : List (Bar K)} {bar : Bar K}
    (hscript : script.length + 1 = bars.length) (hbar : bars[script.length]? = some bar)
    (hlong : position script = true) {last : Action} (hlast : last ≠ .sell) :
    runAt scripted fee (script ++ [last]) bars bars.length =
      barStep fee .hold bar (runAt scripted fee (script ++ [.hold]) bars script.length) := by
  rw [runAt_script_concat fee hscript hbar]
  cases last with
  | hold => rfl
  | buy => exact barStep_of_ignored fee (runAt_script_longPos fee hscript hlong)
  | sell => exact absurd rfl hlast

/-- **The close at the end of the data.** For a script that is long before the last bar and does
not sell on it, the report is the one with a sell on the last bar, and its loss is not larger than
its drawdown, exactly when there is no commission. -/
theorem forced_close_iff (sqrt : K → K) {script : List Action} {last : Action}
    {bars : List (Bar K)} (commissionPct annualization : K) (hlen : 2 ≤ bars.length)
    (hscript : script.length + 1 = bars.length) (hclose : ∀ bar ∈ bars, 0 < bar.close)
    (hfee : commissionPct / 100 < 1) (hlong : position script = true) (hlast : last ≠ .sell) :
    ClosesLikeSell sqrt script last bars commissionPct annualization ↔ commissionPct = 0 := by
  have hne : bars ≠ [] := List.ne_nil_of_length_pos (by omega)
  have hfirst := List.head?_eq_some_head hne
  have hback := List.getLast?_eq_some_getLast hne
  have hbar : bars[script.length]? = some (bars.getLast hne) := by
    rw [← hback, List.getLast?_eq_getElem?, ← hscript, Nat.add_sub_cancel]
  generalize bars.getLast hne = bar at hback hbar
  generalize hfee' : commissionPct / 100 = fee at hfee
  -- the run before the last bar is long, and its equity is a point of the curve
  have hpos := equityCurve_pos scripted (script ++ [.hold]) hfee hclose script.length (by omega)
  have hpos' := runAt_script_longPos fee hscript hlong
  have hheld := runAt_script_not_sell fee hscript hbar hlong hlast
  have hsold := runAt_script_concat fee hscript hbar .sell
  obtain ⟨hequity₀, hequity, hflat, hequity', hlog⟩ := barStep_hold_sell fee bar hpos'
  have hmetrics := metrics_hold_sell_iff fee hpos' hpos
    (hclose bar (List.mem_of_getElem? hbar))
  have hzero : commissionPct = 0 ↔ fee = 0 := by
    rw [← hfee', div_eq_zero_iff]
    simp
  rw [hzero, ← hmetrics, ClosesLikeSell]
  simp only [runBacktest_eq _ _ _ sqrt commissionPct annualization hlen hfirst hback, hfee', hheld,
    hsold, report, hflat, hequity, hequity', hlog, (closeAtEnd_metrics _ _ _).1, true_and]
  rw [← and_assoc, and_iff_left_iff_imp]
  intro hsame
  have hloss := loss_le_drawdown scripted (script ++ [.hold]) hfee hclose bars.length le_rfl
  rw [runAt_script_concat fee hscript hbar, hequity₀] at hloss
  rw [hmetrics.mp hsame, sub_zero, mul_one]
  rw [hmetrics.mp hsame] at hloss
  exact hloss

/-- Without commission a position that the end of the data closes is reported like a sell. -/
theorem forced_close_free :
    ClosesLikeSell Real.sqrt [.hold, .buy] .hold (makeBars [100, 100, 150]) 0 252 := by
  have hclose : ∀ bar ∈ makeBars [100, 100, (150 : ℝ)], 0 < bar.close := by
    simp [makeBars]
  have hlen : 2 ≤ (makeBars [100, 100, (150 : ℝ)]).length := by
    simp [makeBars]
  exact (forced_close_iff Real.sqrt 0 252 hlen rfl hclose (by norm_num) rfl (by simp)).mpr rfl

/-- At one percent a side, flat prices: the fee of the close at the end is in the total return and
not in the drawdown, so the loss is larger than the drawdown. -/
theorem forced_close_escapes_drawdown :
    ((runBacktest (fun x : ℚ => x) scripted [.buy, .hold] (makeBars [100, 100]) 1
          252).totalReturnPct = -199 / 100 ∧
      (runBacktest (fun x : ℚ => x) scripted [.buy, .hold] (makeBars [100, 100]) 1
          252).maxDrawdownPct = 1 ∧
      (runBacktest (fun x : ℚ => x) scripted [.buy, .sell] (makeBars [100, 100]) 1
          252).maxDrawdownPct = 199 / 100) ∧
      ¬ ∀ (sqrt : ℚ → ℚ) (script : List Action) (last : Action) (bars : List (Bar ℚ))
        (commissionPct annualization : ℚ), 2 ≤ bars.length → script.length + 1 = bars.length →
        (∀ bar ∈ bars, 0 < bar.close) → 0 ≤ commissionPct / 100 → commissionPct / 100 < 1 →
        position script = true → last ≠ .sell →
        ClosesLikeSell sqrt script last bars commissionPct annualization := by
  have hreport : (runBacktest (fun x : ℚ => x) scripted [.buy, .hold] (makeBars [100, 100]) 1
        252).totalReturnPct = -199 / 100 ∧
      (runBacktest (fun x : ℚ => x) scripted [.buy, .hold] (makeBars [100, 100]) 1
        252).maxDrawdownPct = 1 ∧
      (runBacktest (fun x : ℚ => x) scripted [.buy, .sell] (makeBars [100, 100]) 1
        252).maxDrawdownPct = 199 / 100 := by
    decide +kernel
  refine ⟨hreport, fun h => ?_⟩
  have hclose : ∀ bar ∈ makeBars [100, (100 : ℚ)], 0 < bar.close := by
    simp [makeBars]
  have hsame := h (fun x => x) [.buy] .hold (makeBars [100, 100]) 1 252 (by simp [makeBars])
    (by simp [makeBars]) hclose (by norm_num) (by norm_num) rfl (by simp)
  have hdraw : (runBacktest (fun x : ℚ => x) scripted [.buy, .hold] (makeBars [100, 100]) 1
      252).maxDrawdownPct = (runBacktest (fun x : ℚ => x) scripted [.buy, .sell]
        (makeBars [100, 100]) 1 252).maxDrawdownPct := hsame.2.2.2.2.1
  rw [hreport.2.1, hreport.2.2] at hdraw
  exact absurd hdraw (by norm_num)

end Algo
end TInvest
