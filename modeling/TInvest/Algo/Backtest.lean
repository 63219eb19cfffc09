import Mathlib
import TInvest.Lib.Numerals

/-!
# The backtester

`run_backtest` of `include/tinvest/algo/backtest.hpp` and the interface of the strategies it
runs. Prices and metrics are `double` in the source and elements of an ordered field here, so
the arithmetic is exact; `sqrt` is a parameter. A strategy is a state and a transition: the
object behind `Strategy&` is the state, which the loop passes on.
-/

namespace TInvest
namespace Algo

variable {K : Type*} {σ : Type*}

/-- `Bar`. -/
structure Bar (K : Type*) where
  time : ℤ
  openPrice : K
  high : K
  low : K
  close : K
  volume : K

/-- `Action`. -/
inductive Action where
  | hold
  | buy
  | sell
deriving DecidableEq

/-- `Strategy`: `on_bar` on the state of the strategy object, and its name. -/
structure Strategy (σ K : Type*) where
  name : String
  onBar : σ → Bar K → σ × Action

/-- The scripted strategy of the tests: it plays the actions that are left, then holds. -/
def scripted : Strategy (List Action) K where
  name := "scripted"
  onBar := fun
    | [], _ => ([], .hold)
    | action :: actions, _ => (actions, action)

/-- `TradeRecord`; `returnPct` is net of commissions. -/
structure TradeRecord (K : Type*) where
  entryTime : ℤ
  exitTime : ℤ
  entryPrice : K
  exitPrice : K
  returnPct : K

section

variable [Field K]

/-- `BacktestReport`. -/
structure BacktestReport (K : Type*) [Field K] where
  strategy : String
  bars : ℕ := 0
  trades : ℕ := 0
  totalReturnPct : K := 0
  buyHoldReturnPct : K := 0
  maxDrawdownPct : K := 0
  sharpe : K := 0
  winRatePct : K := 0
  tradeLog : List (TradeRecord K) := []

/-- The variables of the loop, with the two report fields it writes. -/
structure Run (K : Type*) [Field K] where
  equity : K := 1
  peak : K := 1
  longPos : Bool := false
  entryPrice : K := 0
  entryTime : ℤ := 0
  prevClose : K
  barReturns : List K := []
  maxDrawdownPct : K := 0
  tradeLog : List (TradeRecord K) := []

/-- The record of the position that is closed at `bar`. -/
def closingTrade (fee : K) (bar : Bar K) (run : Run K) : TradeRecord K where
  entryTime := run.entryTime
  exitTime := bar.time
  entryPrice := run.entryPrice
  exitPrice := bar.close
  returnPct := (bar.close / run.entryPrice * (1 - fee) * (1 - fee) - 1) * 100

/-- What the action of the strategy does to the position. -/
def fill (fee : K) (action : Action) (bar : Bar K) (run : Run K) : Run K :=
  if action = .buy ∧ run.longPos = false then
    { run with
      longPos := true
      entryPrice := bar.close
      entryTime := bar.time
      equity := run.equity * (1 - fee) }
  else if action = .sell ∧ run.longPos = true then
    { run with
      longPos := false
      equity := run.equity * (1 - fee)
      tradeLog := run.tradeLog ++ [closingTrade fee bar run] }
  else run

/-- The close of an open position after the last bar. -/
def closeAtEnd (fee : K) (last : Bar K) (run : Run K) : Run K :=
  if run.longPos then
    { run with
      equity := run.equity * (1 - fee)
      tradeLog := run.tradeLog ++ [closingTrade fee last run] }
  else run

end

section

variable [Field K] [LinearOrder K]

/-- Mark to market. -/
def markToMarket (bar : Bar K) (run : Run K) : Run K :=
  if run.longPos = true ∧ 0 < run.prevClose then
    { run with equity := run.equity * (bar.close / run.prevClose) }
  else run

/-- The metrics at the end of a bar. -/
def record (prevEquity : K) (bar : Bar K) (run : Run K) : Run K :=
  let peak := max run.peak run.equity
  { run with
    barReturns :=
      if 0 < prevEquity then run.barReturns ++ [run.equity / prevEquity - 1] else run.barReturns
    peak := peak
    maxDrawdownPct := max run.maxDrawdownPct ((peak - run.equity) / peak * 100)
    prevClose := bar.close }

/-- One bar, given the action the strategy takes on it. -/
def barStep (fee : K) (action : Action) (bar : Bar K) (run : Run K) : Run K :=
  record run.equity bar (fill fee action bar (markToMarket bar run))

/-- The loop over the bars, with the strategy's state. -/
def loop (strategy : Strategy σ K) (fee : K) : List (Bar K) → σ → Run K → σ × Run K
  | [], state, run => (state, run)
  | bar :: bars, state, run =>
    let (state, action) := strategy.onBar state bar
    loop strategy fee bars state (barStep fee action bar run)

/-- `wins`, as a share of the trades. -/
def winRate (tradeLog : List (TradeRecord K)) : K :=
  if tradeLog.length = 0 then 0
  else 100 * (tradeLog.countP fun t => 0 < t.returnPct : ℕ) / tradeLog.length

/-- The Sharpe ratio of the bar returns; `0` for fewer than two of them or no deviation. -/
def sharpeRatio (sqrt : K → K) (annualization : K) (barReturns : List K) : K :=
  if 1 < barReturns.length then
    let mean := barReturns.sum / barReturns.length
    let var := (barReturns.map fun r => (r - mean) * (r - mean)).sum / (barReturns.length - 1 : ℕ)
    let sd := sqrt var
    if 0 < sd then mean / sd * sqrt annualization else 0
  else 0

/-- `run_backtest` on a strategy in the given state. -/
def runBacktest (sqrt : K → K) (strategy : Strategy σ K) (state : σ) (bars : List (Bar K))
    (commissionPct : K := 5 / 100) (annualization : K := 252) : BacktestReport K :=
  if h : bars.length < 2 then
    { strategy := strategy.name, bars := bars.length }
  else
    have hne : bars ≠ [] := by
      intro hnil
      rw [hnil] at h
      exact h (by simp)
    let fee := commissionPct / 100
    let looped := (loop strategy fee bars state { prevClose := (bars.head hne).close }).2
    let run := closeAtEnd fee (bars.getLast hne) looped
    { strategy := strategy.name
      bars := bars.length
      trades := run.tradeLog.length
      totalReturnPct := (run.equity - 1) * 100
      buyHoldReturnPct := ((bars.getLast hne).close / (bars.head hne).close - 1) * 100
      maxDrawdownPct := run.maxDrawdownPct
      sharpe := sharpeRatio sqrt annualization run.barReturns
      winRatePct := winRate run.tradeLog
      tradeLog := run.tradeLog }

end

end Algo
end TInvest
