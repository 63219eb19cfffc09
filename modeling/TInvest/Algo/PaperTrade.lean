import TInvest.Algo.CrossRules
import TInvest.Algo.EquityCurve

/-!
# Paper trading

The handler of `examples/paper_trade.cpp`, which trades a crossover of two exponential averages on
the stream of last prices and only prints its fills. It is written out by hand there, beside
`EmaCross` and `run_backtest`: `paper_trade_backtest` says that it does what they do on the same
prices without a commission. With a period of 0 an average of the source is not a number, in the
handler and in the strategy alike, and neither ever buys; here both start from 0.
-/

namespace TInvest
namespace Algo
namespace PaperTrade

open Lib.Mealy

variable {K : Type*} [Field K]

/-- A line that the handler prints. -/
inductive Line (K : Type*) where
  | buy (price : K) (tick : ℕ)
  | sell (price pnl : K)

/-- The variables that the handler captures, and what it has printed. -/
structure Paper (K : Type*) [Field K] where
  fast : Ema K
  slow : Ema K
  prevAbove : Bool := false
  hasPrev : Bool := false
  longPos : Bool := false
  entry : K := 0
  realizedPct : K := 0
  last : K := 0
  ticks : ℕ := 0
  printed : List (Line K) := []

/-- `main`, before the stream starts. -/
def start (fast slow : ℕ) : Paper K where
  fast := .make fast
  slow := .make slow

variable [LinearOrder K]

/-- The end of the handler, when both averages are ready. -/
def compare (above : Bool) (price : K) (s : Paper K) : Paper K :=
  let s :=
    if s.hasPrev then
      if above && !s.prevAbove && !s.longPos then
        { s with
          longPos := true
          entry := price
          printed := s.printed ++ [.buy price s.ticks] }
      else if !above && s.prevAbove && s.longPos then
        let pnl := (price / s.entry - 1) * 100
        { s with
          longPos := false
          realizedPct := s.realizedPct + pnl
          printed := s.printed ++ [.sell price pnl] }
      else s
    else s
  { s with prevAbove := above, hasPrev := true }

/-- `on_last_price`. -/
def onLastPrice (s : Paper K) (price : K) : Paper K :=
  let s :=
    { s with
      last := price
      ticks := s.ticks + 1
      fast := s.fast.push price
      slow := s.slow.push price }
  if !s.fast.ready || !s.slow.ready then s
  else compare (decide (s.slow.value < s.fast.value)) price s

/-- `open_pnl` after the stream has stopped. -/
def openPnl (s : Paper K) : K :=
  if s.longPos && decide (0 < s.entry) && decide (0 < s.last) then (s.last / s.entry - 1) * 100
  else 0

/-- The handler after the prices. -/
def paper (fast slow : ℕ) (prices : List K) : Paper K := prices.foldl onLastPrice (start fast slow)

/-! ## The same ticks as bars -/

/-- The ticks as bars, with their numbers as times. -/
def tickBars (prices : List K) : List (Bar K) :=
  prices.zipIdx.map fun p => ⟨p.2 + 1, p.1, p.1, p.1, p.1, 0⟩

/-- What the handler prints for a trade. -/
def lines (t : TradeRecord K) : List (Line K) :=
  [.buy t.entryPrice t.entryTime.toNat, .sell t.exitPrice t.returnPct]

/-- The handler beside the strategy and the backtester. -/
structure Follows (s : Paper K) (e : EmaCross K) (run : Run K) : Prop where
  fast : s.fast = e.fast
  slow : s.slow = e.slow
  cross : e.cross = ⟨s.prevAbove, s.hasPrev⟩
  longPos : s.longPos = run.longPos
  entry : run.longPos = true → s.entry = run.entryPrice ∧ 0 < run.entryPrice
  realized : s.realizedPct = (run.tradeLog.map TradeRecord.returnPct).sum
  printed : s.printed = run.tradeLog.flatMap lines ++
    if run.longPos then [.buy run.entryPrice run.entryTime.toNat] else []

/-! ## One tick -/

variable {s : Paper K} {e : EmaCross K} {run : Run K} (bar : Bar K)

/-- An action without effect. -/
lemma barStep_kept {a : Action} (h : a = .hold ∨ Ignored run.longPos a) (fee : K) :
    (barStep fee a bar run).longPos = run.longPos ∧
      (barStep fee a bar run).entryPrice = run.entryPrice ∧
      (barStep fee a bar run).entryTime = run.entryTime ∧
      (barStep fee a bar run).tradeLog = run.tradeLog := by
  have hhold : barStep fee a bar run = barStep fee .hold bar run := by
    rcases h with rfl | hign
    · rfl
    · exact barStep_of_ignored fee hign
  rw [hhold]
  rcases barStep_cases fee .hold bar run with ⟨ha, -⟩ | ⟨ha, -⟩ | ⟨-, hkept⟩
  · exact absurd ha (by decide)
  · exact absurd ha (by decide)
  · exact hkept

/-- A comparison without a fill is remembered. -/
lemma Follows.kept (h : Follows s e run) {a : Action} (ha : a = .hold ∨ Ignored run.longPos a)
    (above : Bool) :
    Follows { s with prevAbove := above, hasPrev := true } { e with cross := ⟨above, true⟩ }
      (barStep 0 a bar run) := by
  obtain ⟨hlong, hprice, htime, hlog⟩ := barStep_kept bar ha (0 : K)
  refine ⟨h.fast, h.slow, rfl, h.longPos.trans hlong.symm, ?_, ?_, ?_⟩
  · rw [hlong, hprice]
    exact h.entry
  · rw [hlog]
    exact h.realized
  · rw [hlog, hlong, hprice, htime]
    exact h.printed

/-- Both buy. -/
lemma Follows.bought (h : Follows s e run) (hflat : run.longPos = false) (hclose : 0 < bar.close)
    (htick : bar.time.toNat = s.ticks) :
    Follows
      { s with
        longPos := true
        entry := bar.close
        printed := s.printed ++ [.buy bar.close s.ticks]
        prevAbove := true
        hasPrev := true }
      { e with cross := ⟨true, true⟩ } (barStep 0 .buy bar run) := by
  rcases barStep_cases (0 : K) .buy bar run with
    ⟨-, -, hlong, hprice, htime, hlog⟩ | ⟨ha, -⟩ | ⟨ha, -⟩
  · refine ⟨h.fast, h.slow, rfl, hlong.symm, fun _ => ?_, ?_, ?_⟩
    · rw [hprice]
      exact ⟨rfl, hclose⟩
    · rw [hlog]
      exact h.realized
    · have hprinted := h.printed
      rw [hflat, if_neg (by simp), List.append_nil] at hprinted
      rw [hlog, hlong, if_pos rfl, hprice, htime, htick, ← hprinted]
  · exact absurd ha (by decide)
  · rcases ha with ha | ha
    · exact absurd ha (by decide)
    · exact absurd (hflat.symm.trans ha) (by decide)

/-- Both sell, and the gain is the return of the trade. -/
lemma Follows.sold (h : Follows s e run) (hlong : run.longPos = true) :
    Follows
      { s with
        longPos := false
        realizedPct := s.realizedPct + (bar.close / s.entry - 1) * 100
        printed := s.printed ++ [.sell bar.close ((bar.close / s.entry - 1) * 100)]
        prevAbove := false
        hasPrev := true }
      { e with cross := ⟨false, true⟩ } (barStep 0 .sell bar run) := by
  obtain ⟨hentry, -⟩ := h.entry hlong
  have hreturn : (closingTrade 0 bar run).returnPct = (bar.close / s.entry - 1) * 100 := by
    rw [closingTrade, hentry, sub_zero, mul_one, mul_one]
  rcases barStep_cases (0 : K) .sell bar run with ⟨ha, -⟩ | ⟨-, -, hflat, hlog⟩ | ⟨ha, -⟩
  · exact absurd ha (by decide)
  · refine ⟨h.fast, h.slow, rfl, hflat.symm, fun hnow => ?_, ?_, ?_⟩
    · exact absurd (hflat.symm.trans hnow) (by decide)
    · rw [hlog, List.map_append, List.sum_append, ← h.realized, List.map_singleton,
        List.sum_singleton, hreturn]
    · have hprinted := h.printed
      rw [hlong, if_pos rfl] at hprinted
      rw [hlog, hflat, if_neg (by simp), List.append_nil, List.flatMap_append, hprinted,
        List.flatMap_singleton, lines, hreturn, List.append_assoc]
      rfl
  · rcases ha with ha | ha
    · exact absurd ha (by decide)
    · exact absurd (hlong.symm.trans ha) (by decide)

/-- Comparing the averages is the end of `on_bar` and of the bar. -/
lemma Follows.compare (h : Follows s e run) (hclose : 0 < bar.close)
    (htick : bar.time.toNat = s.ticks) (above : Bool) :
    Follows (compare above bar.close s) { e with cross := (e.cross.signal (some above)).1 }
      (barStep 0 (e.cross.signal (some above)).2 bar run) := by
  have hlong := h.longPos
  rw [h.cross]
  cases hhas : s.hasPrev with
  | false =>
    have hkept := h.kept bar (Or.inl rfl) above
    simpa [PaperTrade.compare, Cross.signal, hhas] using hkept
  | true =>
    cases hprev : s.prevAbove with
    | false =>
      cases above with
      | false =>
        have hkept := h.kept bar (Or.inl rfl) false
        simpa [PaperTrade.compare, Cross.signal, hhas, hprev] using hkept
      | true =>
        -- a rise: both buy unless they are long
        cases hpos : s.longPos with
        | false =>
          have hbought := h.bought bar (hlong.symm.trans hpos) hclose htick
          simpa [PaperTrade.compare, Cross.signal, hhas, hprev, hpos] using hbought
        | true =>
          have hign : Ignored run.longPos .buy := hlong.symm.trans hpos
          have hkept := h.kept bar (Or.inr hign) true
          simpa [PaperTrade.compare, Cross.signal, hhas, hprev, hpos] using hkept
    | true =>
      cases above with
      | false =>
        -- a fall: both sell unless they are flat
        cases hpos : s.longPos with
        | false =>
          have hign : Ignored run.longPos .sell := hlong.symm.trans hpos
          have hkept := h.kept bar (Or.inr hign) false
          simpa [PaperTrade.compare, Cross.signal, hhas, hprev, hpos] using hkept
        | true =>
          have hsold := h.sold bar (hlong.symm.trans hpos)
          simpa [PaperTrade.compare, Cross.signal, hhas, hprev, hpos] using hsold
      | true =>
        have hkept := h.kept bar (Or.inl rfl) true
        simpa [PaperTrade.compare, Cross.signal, hhas, hprev] using hkept

/-- **One tick** is one bar of the strategy and of the backtester. -/
lemma Follows.onLastPrice (h : Follows s e run) (hclose : 0 < bar.close)
    (htick : bar.time.toNat = s.ticks + 1) :
    Follows (onLastPrice s bar.close) (EmaCross.onBar e bar).1
      (barStep 0 (EmaCross.onBar e bar).2 bar run) := by
  -- the averages are pushed first
  have hpushed : Follows
      { s with
        last := bar.close
        ticks := s.ticks + 1
        fast := s.fast.push bar.close
        slow := s.slow.push bar.close }
      { e with fast := e.fast.push bar.close, slow := e.slow.push bar.close } run :=
    ⟨by rw [h.fast], by rw [h.slow], h.cross, h.longPos, h.entry, h.realized, h.printed⟩
  rw [PaperTrade.onLastPrice, EmaCross.onBar, h.fast, h.slow]
  rw [h.fast, h.slow] at hpushed
  simp only
  by_cases hready : ((e.slow.push bar.close).ready && (e.fast.push bar.close).ready) = true
  · obtain ⟨hslow, hfast⟩ := Bool.and_eq_true_iff.mp hready
    rw [if_pos hready, if_neg (by simp [hslow, hfast])]
    exact hpushed.compare bar hclose htick _
  · have hnot : (!(e.fast.push bar.close).ready || !(e.slow.push bar.close).ready) = true := by
      rw [Bool.and_comm] at hready
      simpa [← Bool.not_and] using hready
    rw [if_neg hready, if_pos hnot]
    obtain ⟨hlong, hprice, htime, hlog⟩ :=
      @barStep_kept K _ _ run bar .hold (Or.inl rfl) 0
    refine ⟨rfl, rfl, h.cross, h.longPos.trans hlong.symm, ?_, ?_, ?_⟩
    · rw [Cross.signal, hlong, hprice]
      exact h.entry
    · rw [Cross.signal, hlog]
      exact h.realized
    · rw [Cross.signal, hlog, hlong, hprice, htime]
      exact h.printed

/-! ## Runs -/

omit [LinearOrder K] in
lemma tickBars_getElem? (prices : List K) (i : ℕ) :
    (tickBars prices)[i]? = prices[i]?.map fun p => ⟨i + 1, p, p, p, p, 0⟩ := by
  rw [tickBars, List.getElem?_map, List.getElem?_zipIdx, Option.map_map, Nat.zero_add]
  rfl

omit [LinearOrder K] in
@[simp] lemma length_tickBars (prices : List K) : (tickBars prices).length = prices.length := by
  rw [tickBars, List.length_map, List.length_zipIdx]

lemma paper_concat (fast slow : ℕ) (prices : List K) (price : K) :
    paper fast slow (prices ++ [price]) = onLastPrice (paper fast slow prices) price :=
  List.foldl_concat ..

omit [LinearOrder K] in
/-- What a comparison leaves alone. -/
lemma compare_frame (above : Bool) (price : K) (s : Paper K) :
    (compare above price s).last = s.last ∧ (compare above price s).ticks = s.ticks := by
  rw [compare]
  cases s.hasPrev with
  | false => exact ⟨rfl, rfl⟩
  | true =>
    simp only [if_true]
    split
    · exact ⟨rfl, rfl⟩
    · split <;> exact ⟨rfl, rfl⟩

lemma onLastPrice_frame (s : Paper K) (price : K) :
    (onLastPrice s price).last = price ∧ (onLastPrice s price).ticks = s.ticks + 1 := by
  rw [onLastPrice]
  simp only
  split
  · exact ⟨rfl, rfl⟩
  · exact compare_frame ..

lemma paper_ticks (fast slow : ℕ) (prices : List K) :
    (paper fast slow prices).ticks = prices.length := by
  induction prices using List.reverseRecOn with
  | nil => rfl
  | append_singleton prices price ih =>
    rw [paper_concat, (onLastPrice_frame _ _).2, ih, List.length_append, List.length_singleton]

/-- The handler follows the strategy and the backtester through all ticks. -/
lemma follows_of_run (fast slow : ℕ) {prices : List K} (hpos : ∀ p ∈ prices, 0 < p) :
    ∀ i ≤ (tickBars prices).length,
      Follows (paper fast slow (prices.take i))
        (after (EmaCross.strategy fast slow).onBar (EmaCross.make fast slow)
          ((tickBars prices).take i))
        (runAt (EmaCross.strategy fast slow) 0 (EmaCross.make fast slow) (tickBars prices) i) := by
  have hstart : Follows (paper fast slow (prices.take 0))
      (after (EmaCross.strategy fast slow).onBar (EmaCross.make fast slow)
        ((tickBars prices).take 0))
      (runAt (EmaCross.strategy fast slow) 0 (EmaCross.make fast slow) (tickBars prices) 0) :=
    ⟨rfl, rfl, rfl, rfl, fun hlong => absurd hlong (by simp [runAt, loop, opening]), rfl, rfl⟩
  refine runAt_induction (EmaCross.strategy fast slow) 0 (EmaCross.make fast slow) _ hstart ?_
  intro i a bar hbar ha hstep hfollows
  rw [emitted_getElem? _ _ hbar] at ha
  have hlt : i < prices.length := by
    rw [← length_tickBars]
    exact (List.getElem?_eq_some_iff.mp hbar).1
  have hprice : prices[i]? = some prices[i] := List.getElem?_eq_getElem hlt
  rw [tickBars_getElem?, hprice] at hbar
  obtain rfl := Option.some.inj hbar
  have htick : ((i : ℤ) + 1).toNat = (paper fast slow (prices.take i)).ticks + 1 := by
    rw [paper_ticks, List.length_take_of_le hlt.le]
    omega
  have hnext := hfollows.onLastPrice ⟨i + 1, prices[i], prices[i], prices[i], prices[i], 0⟩
    (hpos _ (List.getElem_mem hlt)) htick
  rw [hstep, List.take_add_one, hprice, List.take_add_one, tickBars_getElem?, hprice,
    ← Option.some.inj ha]
  simp only [Option.map_some, Option.toList_some, paper_concat, after_concat]
  exact hnext

/-- **Paper trading is backtesting.** For all periods and every sequence of at least two positive
prices, the handler prints the fills that `run_backtest` books for `EmaCross` on the same prices
without a commission, in order: each trade of the report is printed with its prices, the tick of
its entry and its return, but that a position that is open at the end is printed without its sell.
The gain that `main` prints, realized and open together, is the sum of the returns of the report. -/
theorem paper_trade_backtest (fast slow : ℕ) {prices : List K} (hlen : 2 ≤ prices.length)
    (hpos : ∀ p ∈ prices, 0 < p) (sqrt : K → K) (annualization : K) :
    let s : Paper K := paper fast slow prices
    let r := runBacktest sqrt (EmaCross.strategy fast slow) (EmaCross.make fast slow)
      (tickBars prices) 0 annualization
    (s.longPos = false → s.printed = r.tradeLog.flatMap lines) ∧
      (s.longPos = true → ∃ closed t, r.tradeLog = closed ++ [t] ∧ t.returnPct = openPnl s ∧
        s.printed = closed.flatMap lines ++ [.buy t.entryPrice t.entryTime.toNat]) ∧
      s.realizedPct + openPnl s = (r.tradeLog.map TradeRecord.returnPct).sum := by
  intro s r
  have hne : tickBars prices ≠ [] := List.ne_nil_of_length_pos (by rw [length_tickBars]; omega)
  have hfollows := follows_of_run fast slow hpos (tickBars prices).length le_rfl
  rw [length_tickBars, List.take_length] at hfollows
  set run := runAt (EmaCross.strategy fast slow) (0 : K) (EmaCross.make fast slow)
    (tickBars prices) prices.length
  -- the last bar is the last price
  obtain ⟨before, price, hprices⟩ : ∃ before price, prices = before ++ [price] := by
    rcases List.eq_nil_or_concat prices with hnil | ⟨before, price, hcat⟩
    · rw [hnil] at hlen
      exact absurd hlen (by simp)
    · exact ⟨before, price, by rw [hcat, List.concat_eq_append]⟩
  have hlast : s.last = price := by
    show (paper fast slow prices).last = price
    rw [hprices, paper_concat]
    exact (onLastPrice_frame _ _).1
  set last : Bar K := ⟨before.length + 1, price, price, price, price, 0⟩ with hlastBar
  have hbar : (tickBars prices).getLast? = some last := by
    rw [List.getLast?_eq_getElem?, length_tickBars, tickBars_getElem?, hprices]
    simp [hlastBar]
  have hprice : 0 < price := hpos price (by rw [hprices]; simp)
  have hreport := runBacktest_eq (EmaCross.strategy fast slow) (EmaCross.make fast slow)
    (tickBars prices) sqrt 0 annualization (by rw [length_tickBars]; exact hlen)
    (List.head?_eq_some_head hne) hbar
  rw [zero_div, length_tickBars] at hreport
  have hlog : r.tradeLog = (closeAtEnd 0 last run).tradeLog :=
    congrArg BacktestReport.tradeLog hreport
  have hlong : s.longPos = run.longPos := hfollows.longPos
  have hprinted := hfollows.printed
  have hrealized : s.realizedPct = (run.tradeLog.map TradeRecord.returnPct).sum :=
    hfollows.realized
  by_cases hopen : run.longPos = true
  · -- the position that the end of the data closes is the one that is still open
    obtain ⟨hentry, hentryPos⟩ := hfollows.entry hopen
    have hentry' : s.entry = run.entryPrice := hentry
    have hreturn : (closingTrade 0 last run).returnPct = openPnl s := by
      rw [openPnl, hlong, hopen, hentry', hlast]
      simp [closingTrade, hentryPos, hprice, hlastBar]
    rw [closeAtEnd, if_pos hopen] at hlog
    rw [if_pos hopen] at hprinted
    refine ⟨fun hflat => ?_, fun _ => ⟨run.tradeLog, _, hlog, hreturn, hprinted⟩, ?_⟩
    · exact absurd (hflat.symm.trans (hlong.trans hopen)) (by decide)
    · rw [hlog, List.map_append, List.sum_append, ← hrealized, List.map_singleton,
        List.sum_singleton, hreturn]
  · have hflat : s.longPos = false := by
      rw [hlong]
      simpa using hopen
    rw [closeAtEnd, if_neg hopen] at hlog
    rw [if_neg hopen, List.append_nil] at hprinted
    refine ⟨fun _ => ?_, fun hheld => absurd (hflat.symm.trans hheld) (by decide), ?_⟩
    · rw [hlog]
      exact hprinted
    · have hnone : openPnl s = 0 := by
        rw [openPnl, hflat]
        rfl
      rw [hlog, hnone, add_zero, hrealized]

/-- A fall, a rise and a fall again: one trade. -/
theorem paper_trade_backtest_one :
    (paper 1 2 [4, 2, 5, (1 : ℝ)]).realizedPct + openPnl (paper 1 2 [4, 2, 5, (1 : ℝ)])
      = ((runBacktest Real.sqrt (EmaCross.strategy 1 2) (EmaCross.make 1 2)
        (tickBars [4, 2, 5, (1 : ℝ)]) 0 252).tradeLog.map TradeRecord.returnPct).sum :=
  (paper_trade_backtest 1 2 (by simp) (by simp) Real.sqrt 252).2.2

end PaperTrade
end Algo
end TInvest
