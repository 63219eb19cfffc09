import TInvest.Algo.Backtest

/-!
# The books of the backtester

The equity is compounded bar by bar, the trade log is computed from entry and exit prices.

* `Books` — the invariant that ties them: the equity is the product of the closed trades, and of
  the value of the open position when there is one;
* `markToMarket_books`, `fill_books`, `record_books` — the three parts of a bar keep it, hence
  the loop does (`loop_books`), for any actions of the strategy;
* `backtest_accounting` — the identity of the report.
-/

namespace TInvest
namespace Algo

variable {K : Type*} {σ : Type*} [Field K]

/-- The factor by which a trade multiplies the equity. -/
def TradeRecord.factor (fee : K) (t : TradeRecord K) : K :=
  t.exitPrice / t.entryPrice * (1 - fee) ^ 2

/-- The equity of the closed trades. -/
def closedEquity (fee : K) (tradeLog : List (TradeRecord K)) : K :=
  (tradeLog.map (TradeRecord.factor fee)).prod

/-- The value of the position at `price`, the entry fee paid; `1` out of a position. -/
def positionValue (fee price : K) (run : Run K) : K :=
  if run.longPos then (1 - fee) * (price / run.entryPrice) else 1

lemma closedEquity_append (fee : K) (tradeLog : List (TradeRecord K)) (t : TradeRecord K) :
    closedEquity fee (tradeLog ++ [t]) = closedEquity fee tradeLog * t.factor fee := by
  rw [closedEquity, List.map_append, List.prod_append, closedEquity]
  simp

/-- The closed trades, with the fees taken out. -/
lemma closedEquity_eq (fee : K) (tradeLog : List (TradeRecord K)) :
    closedEquity fee tradeLog
      = (tradeLog.map fun t => t.exitPrice / t.entryPrice).prod
        * (1 - fee) ^ (2 * tradeLog.length) := by
  induction tradeLog with
  | nil => simp [closedEquity]
  | cons t tradeLog ih =>
    rw [closedEquity] at ih
    rw [closedEquity, List.map_cons, List.prod_cons, ih, List.map_cons, List.prod_cons,
      List.length_cons, TradeRecord.factor]
    ring

variable [LinearOrder K]

/-- The books at `price`: the equity is what the closed trades and the position are worth, the
net return of each closed trade is the one of its prices, and a position has a price. -/
structure Books (fee price : K) (run : Run K) : Prop where
  equity : run.equity = closedEquity fee run.tradeLog * positionValue fee price run
  returns : ∀ t ∈ run.tradeLog, 1 + t.returnPct / 100 = t.factor fee
  entry : run.longPos = true → 0 < run.entryPrice

/-- A run starts flat, with the books open at the first close. -/
lemma start_books (fee price : K) :
    Books fee (Run.prevClose ({ prevClose := price } : Run K)) { prevClose := price } :=
  ⟨by simp [closedEquity, positionValue], by simp, by simp⟩

/-- Mark to market moves the books to the new close. -/
lemma markToMarket_books {fee : K} {bar : Bar K} {run : Run K} (hprev : 0 < run.prevClose)
    (h : Books fee run.prevClose run) : Books fee bar.close (markToMarket bar run) := by
  by_cases hlong : run.longPos = true
  · rw [markToMarket, if_pos ⟨hlong, hprev⟩]
    refine ⟨?_, h.returns, h.entry⟩
    -- the old close cancels
    have hequity := h.equity
    rw [positionValue, if_pos hlong] at hequity
    have hentry := h.entry hlong
    show run.equity * (bar.close / run.prevClose)
      = closedEquity fee run.tradeLog * positionValue fee bar.close run
    rw [positionValue, if_pos hlong, hequity]
    field_simp
  · rw [markToMarket, if_neg (fun hc => hlong hc.1)]
    refine ⟨?_, h.returns, h.entry⟩
    have hequity := h.equity
    rw [positionValue, if_neg hlong] at hequity
    rw [positionValue, if_neg hlong, hequity]

/-- The metrics do not touch the books, and the next bar starts from this close. -/
lemma record_books {fee : K} {bar : Bar K} {run : Run K} (prevEquity : K)
    (h : Books fee bar.close run) :
    Books fee (record prevEquity bar run).prevClose (record prevEquity bar run) :=
  ⟨h.equity, h.returns, h.entry⟩

/-- After the loop the previous close is the one of the last bar. -/
lemma loop_prevClose (strategy : Strategy σ K) (fee : K) {bars : List (Bar K)} (hne : bars ≠ [])
    (state : σ) (run : Run K) :
    (loop strategy fee bars state run).2.prevClose = (bars.getLast hne).close := by
  induction bars generalizing state run with
  | nil => exact absurd rfl hne
  | cons bar bars ih =>
    cases bars with
    | nil => rfl
    | cons next rest =>
      rw [List.getLast_cons (List.cons_ne_nil next rest)]
      exact ih (List.cons_ne_nil next rest) _ _

variable [IsStrictOrderedRing K]

/-- The recorded return of a trade is the one of its prices. -/
lemma closingTrade_factor (fee : K) (bar : Bar K) (run : Run K) :
    1 + (closingTrade fee bar run).returnPct / 100 = (closingTrade fee bar run).factor fee := by
  simp only [closingTrade, TradeRecord.factor]
  ring

/-- Closing a long position at the price of the books moves its value to the closed trades. -/
lemma closing_equity {fee : K} {bar : Bar K} {run : Run K} (h : Books fee bar.close run)
    (hlong : run.longPos = true) :
    run.equity * (1 - fee)
      = closedEquity fee (run.tradeLog ++ [closingTrade fee bar run]) := by
  rw [closedEquity_append, h.equity, positionValue, if_pos hlong]
  simp only [TradeRecord.factor, closingTrade]
  ring

lemma closing_returns {fee : K} {bar : Bar K} {run : Run K} (h : Books fee bar.close run) :
    ∀ t ∈ run.tradeLog ++ [closingTrade fee bar run],
      1 + t.returnPct / 100 = t.factor fee := by
  intro t ht
  rcases List.mem_append.mp ht with hmem | hmem
  · exact h.returns t hmem
  · rw [List.mem_singleton.mp hmem]
    exact closingTrade_factor fee bar run

/-! ## One bar and the loop -/

/-- A fill at the close keeps the books. -/
lemma fill_books {fee : K} {bar : Bar K} {run : Run K} (action : Action) (hclose : 0 < bar.close)
    (h : Books fee bar.close run) : Books fee bar.close (fill fee action bar run) := by
  rw [fill]
  split
  · -- an entry is worth its price less the fee
    next hbuy =>
    refine ⟨?_, h.returns, fun _ => hclose⟩
    have hequity := h.equity
    rw [positionValue, if_neg (by simp [hbuy.2])] at hequity
    show run.equity * (1 - fee)
      = closedEquity fee run.tradeLog * ((1 - fee) * (bar.close / bar.close))
    rw [hequity, div_self hclose.ne']
    ring
  · split
    · next hsell =>
      refine ⟨?_, closing_returns h, fun hlong => absurd hlong (by simp)⟩
      rw [positionValue, if_neg (by simp), mul_one]
      exact closing_equity h hsell.2
    · exact h

lemma barStep_books {fee : K} {bar : Bar K} {run : Run K} (action : Action)
    (hclose : 0 < bar.close) (hprev : 0 < run.prevClose) (h : Books fee run.prevClose run) :
    Books fee (barStep fee action bar run).prevClose (barStep fee action bar run) :=
  record_books run.equity (fill_books action hclose (markToMarket_books hprev h))

/-- Over any bars and any actions, the books hold at the last close. -/
lemma loop_books (strategy : Strategy σ K) {fee : K} {bars : List (Bar K)}
    (hclose : ∀ bar ∈ bars, 0 < bar.close) (state : σ) {run : Run K} (hprev : 0 < run.prevClose)
    (h : Books fee run.prevClose run) :
    Books fee (loop strategy fee bars state run).2.prevClose
      (loop strategy fee bars state run).2 := by
  induction bars generalizing state run with
  | nil => exact h
  | cons bar bars ih =>
    have hbar : 0 < bar.close := hclose bar (List.mem_cons_self ..)
    exact ih (fun b hb => hclose b (List.mem_cons_of_mem bar hb)) _ hbar
      (barStep_books _ hbar hprev h)

/-- The close after the last bar settles the books. -/
lemma closeAtEnd_books {fee : K} {last : Bar K} {run : Run K} (h : Books fee last.close run) :
    (closeAtEnd fee last run).equity = closedEquity fee (closeAtEnd fee last run).tradeLog ∧
      ∀ t ∈ (closeAtEnd fee last run).tradeLog, 1 + t.returnPct / 100 = t.factor fee := by
  rw [closeAtEnd]
  split
  · next hlong => exact ⟨closing_equity h hlong, closing_returns h⟩
  · next hflat =>
    refine ⟨?_, h.returns⟩
    have hequity := h.equity
    rw [positionValue, if_neg hflat, mul_one] at hequity
    exact hequity

/-- **The accounting identity.** For any strategy in any state, any bars with positive closes and
any commission, the total return of the report is the product of the trade returns, which is the
product of the exit prices over the entry prices, less two fees for each trade. -/
theorem backtest_accounting (sqrt : K → K) (strategy : Strategy σ K) (state : σ)
    (bars : List (Bar K)) (commissionPct annualization : K) (hlen : 2 ≤ bars.length)
    (hclose : ∀ bar ∈ bars, 0 < bar.close) :
    1 + (runBacktest sqrt strategy state bars commissionPct annualization).totalReturnPct / 100
        = ((runBacktest sqrt strategy state bars commissionPct annualization).tradeLog.map
            fun t => 1 + t.returnPct / 100).prod ∧
      ((runBacktest sqrt strategy state bars commissionPct annualization).tradeLog.map
          fun t => 1 + t.returnPct / 100).prod
        = ((runBacktest sqrt strategy state bars commissionPct annualization).tradeLog.map
            fun t => t.exitPrice / t.entryPrice).prod
          * (1 - commissionPct / 100)
            ^ (2 * (runBacktest sqrt strategy state bars commissionPct annualization).trades) := by
  have hne : bars ≠ [] := List.ne_nil_of_length_pos (by omega)
  have hfirst : 0 < (bars.head hne).close := hclose _ (List.head_mem hne)
  have hloop := loop_books strategy hclose state hfirst
    (start_books (commissionPct / 100) (bars.head hne).close)
  rw [loop_prevClose strategy _ hne] at hloop
  obtain ⟨hequity, hreturns⟩ := closeAtEnd_books hloop
  rw [runBacktest, dif_neg (by omega)]
  dsimp only
  rw [List.map_congr_left hreturns]
  constructor
  · rw [hequity, closedEquity]
    ring
  · exact closedEquity_eq _ _

/-- Bars with the given closes, as the tests build them. -/
def makeBars (closes : List K) : List (Bar K) :=
  closes.zipIdx.map fun (c, i) => ⟨1700000000 + 86400 * i, c, c, c, c, 0⟩

/-- One trade that is sold and one that the end of the data closes, at one percent a side. -/
theorem backtest_accounting_two_trades :
    1 + (runBacktest Real.sqrt scripted [.buy, .sell, .buy] (makeBars [100, 110, 100, 150])
          1 252).totalReturnPct / 100
        = ((runBacktest Real.sqrt scripted [.buy, .sell, .buy] (makeBars [100, 110, 100, 150])
          1 252).tradeLog.map fun t => 1 + t.returnPct / 100).prod := by
  have hclose : ∀ bar ∈ makeBars [100, 110, 100, (150 : ℝ)], 0 < bar.close := by
    simp [makeBars]
  have hlen : 2 ≤ (makeBars [100, 110, 100, (150 : ℝ)]).length := by
    simp [makeBars]
  exact (backtest_accounting Real.sqrt scripted [.buy, .sell, .buy] _ 1 252 hlen hclose).1

example (sqrt : ℚ → ℚ) :
    (runBacktest sqrt scripted [.buy, .sell, .buy] (makeBars [100, 110, 100, 150])
      1 252).trades = 2 := by
  rfl

end Algo
end TInvest
