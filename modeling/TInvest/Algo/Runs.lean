import TInvest.Lib.Mealy
import TInvest.Algo.Backtest

/-!
# Runs of the backtester

What the loop of `run_backtest` does depends on the strategy only through the actions it takes.

* `emitted` — the actions of a strategy on a list of bars;
* `runAt` — the variables of the loop after the first `i` bars; `runAt_succ` is one bar and
  `runAt_induction` the induction over the bars;
* `position` — the long-only position that a list of actions leads to, which is the flag of the
  loop (`runAt_longPos`);
* `runBacktest_eq` — the report, read off the run after the last bar.
-/

namespace TInvest
namespace Algo

open Lib.Mealy

variable {K : Type*} {σ : Type*}

/-- The actions of the strategy on the bars. -/
def emitted (strategy : Strategy σ K) (state : σ) (bars : List (Bar K)) : List Action :=
  outputs strategy.onBar state bars

@[simp] lemma length_emitted (strategy : Strategy σ K) (state : σ) (bars : List (Bar K)) :
    (emitted strategy state bars).length = bars.length :=
  length_outputs ..

/-- The action on a bar: the strategy has seen the bars before it. -/
lemma emitted_getElem? (strategy : Strategy σ K) (state : σ) {bars : List (Bar K)} {i : ℕ}
    {bar : Bar K} (hbar : bars[i]? = some bar) :
    (emitted strategy state bars)[i]? =
      some (strategy.onBar (after strategy.onBar state (bars.take i)) bar).2 := by
  rw [emitted, getElem?_outputs, hbar]
  rfl

/-- The scripted strategy plays its script. -/
lemma emitted_scripted {actions : List Action} {bars : List (Bar K)}
    (h : actions.length = bars.length) : emitted scripted actions bars = actions := by
  induction actions generalizing bars with
  | nil =>
    have hnil : bars = [] := List.length_eq_zero_iff.mp h.symm
    rw [hnil]
    rfl
  | cons a actions ih =>
    cases bars with
    | nil => exact absurd h (by simp)
    | cons bar bars =>
      have hlen : actions.length = bars.length := by simpa using h
      have htail := ih hlen
      rw [emitted] at htail ⊢
      rw [outputs]
      exact congrArg (List.cons a) htail

section

variable [Field K] [LinearOrder K]

/-- The variables of the loop before the first bar. -/
def opening (bars : List (Bar K)) : Run K := { prevClose := (bars.head?.map Bar.close).getD 0 }

/-- The variables of the loop after the first `i` bars. -/
def runAt (strategy : Strategy σ K) (fee : K) (state : σ) (bars : List (Bar K)) (i : ℕ) : Run K :=
  (loop strategy fee (bars.take i) state (opening bars)).2

variable (strategy : Strategy σ K) (fee : K) (state : σ) (bars : List (Bar K))

lemma loop_append (rest : List (Bar K)) (run : Run K) :
    loop strategy fee (bars ++ rest) state run =
      loop strategy fee rest (loop strategy fee bars state run).1
        (loop strategy fee bars state run).2 := by
  induction bars generalizing state run with
  | nil => rfl
  | cons bar bars ih => exact ih _ _

lemma loop_state (run : Run K) :
    (loop strategy fee bars state run).1 = after strategy.onBar state bars := by
  induction bars generalizing state run with
  | nil => rfl
  | cons bar bars ih => exact ih _ _

/-- The loop sees the strategy through its actions. -/
lemma loop_eq_foldl (run : Run K) :
    (loop strategy fee bars state run).2 =
      ((emitted strategy state bars).zip bars).foldl
        (fun run p => barStep fee p.1 p.2 run) run := by
  induction bars generalizing state run with
  | nil => rfl
  | cons bar bars ih => exact ih _ _

/-- Strategies that take the same actions on the first bars have the same run there. -/
lemma runAt_congr {τ : Type*} (strategy' : Strategy τ K) (state' : τ) {i : ℕ}
    (h : (emitted strategy state bars).take i = (emitted strategy' state' bars).take i) :
    runAt strategy fee state bars i = runAt strategy' fee state' bars i := by
  rw [runAt, runAt, loop_eq_foldl, loop_eq_foldl, emitted, emitted, outputs_take, outputs_take]
  rw [emitted, emitted] at h
  rw [h]

/-- One bar of the loop. -/
lemma runAt_succ {i : ℕ} {a : Action} {bar : Bar K} (hbar : bars[i]? = some bar)
    (ha : (emitted strategy state bars)[i]? = some a) :
    runAt strategy fee state bars (i + 1) =
      barStep fee a bar (runAt strategy fee state bars i) := by
  have hact : a = (strategy.onBar (after strategy.onBar state (bars.take i)) bar).2 := by
    rw [emitted_getElem? strategy state hbar] at ha
    exact (Option.some.inj ha).symm
  rw [runAt, List.take_add_one, hbar, loop_append, runAt, hact, ← loop_state strategy fee]
  rfl

/-- **Induction over the bars.** -/
theorem runAt_induction {P : ℕ → Prop} (hzero : P 0)
    (hsucc : ∀ i a bar, bars[i]? = some bar → (emitted strategy state bars)[i]? = some a →
      runAt strategy fee state bars (i + 1) = barStep fee a bar (runAt strategy fee state bars i) →
      P i → P (i + 1)) :
    ∀ i ≤ bars.length, P i := by
  intro i
  induction i with
  | zero => exact fun _ => hzero
  | succ i ih =>
    intro hi
    have hbar : bars[i]? = some bars[i] := List.getElem?_eq_getElem hi
    have hlt : i < (emitted strategy state bars).length := by
      rw [length_emitted]
      exact hi
    have ha := List.getElem?_eq_getElem hlt
    exact hsucc i _ _ hbar ha (runAt_succ strategy fee state bars hbar ha) (ih (by omega))

/-! ## One bar -/

lemma markToMarket_cases (bar : Bar K) (run : Run K) :
    ∃ equity, markToMarket bar run = { run with equity := equity } := by
  rw [markToMarket]
  split
  · exact ⟨_, rfl⟩
  · exact ⟨run.equity, rfl⟩

/-- The action has no effect on a position that is long or not. -/
def Ignored (long : Bool) : Action → Prop
  | .hold => False
  | .buy => long = true
  | .sell => long = false

omit [LinearOrder K] in
/-- What an action can do: open a position, close it, or nothing. -/
lemma fill_cases (fee : K) (a : Action) (bar : Bar K) (run : Run K) :
    (a = .buy ∧ run.longPos = false ∧ fill fee a bar run =
      { run with
        longPos := true
        entryPrice := bar.close
        entryTime := bar.time
        equity := run.equity * (1 - fee) }) ∨
    (a = .sell ∧ run.longPos = true ∧ fill fee a bar run =
      { run with
        longPos := false
        equity := run.equity * (1 - fee)
        tradeLog := run.tradeLog ++ [closingTrade fee bar run] }) ∨
    ((a = .hold ∨ Ignored run.longPos a) ∧ fill fee a bar run = run) := by
  cases a with
  | hold => exact Or.inr (Or.inr ⟨Or.inl rfl, rfl⟩)
  | buy =>
    cases hlong : run.longPos with
    | false => exact Or.inl ⟨rfl, rfl, by simp [fill, hlong]⟩
    | true => exact Or.inr (Or.inr ⟨Or.inr rfl, by simp [fill, hlong]⟩)
  | sell =>
    cases hlong : run.longPos with
    | false => exact Or.inr (Or.inr ⟨Or.inr rfl, by simp [fill, hlong]⟩)
    | true => exact Or.inr (Or.inl ⟨rfl, rfl, by simp [fill, hlong]⟩)

/-- What a bar can do to the position and the log. -/
lemma barStep_cases (fee : K) (a : Action) (bar : Bar K) (run : Run K) :
    (a = .buy ∧ run.longPos = false ∧ (barStep fee a bar run).longPos = true ∧
      (barStep fee a bar run).entryPrice = bar.close ∧
      (barStep fee a bar run).entryTime = bar.time ∧
      (barStep fee a bar run).tradeLog = run.tradeLog) ∨
    (a = .sell ∧ run.longPos = true ∧ (barStep fee a bar run).longPos = false ∧
      (barStep fee a bar run).tradeLog = run.tradeLog ++ [closingTrade fee bar run]) ∨
    ((a = .hold ∨ Ignored run.longPos a) ∧ (barStep fee a bar run).longPos = run.longPos ∧
      (barStep fee a bar run).entryPrice = run.entryPrice ∧
      (barStep fee a bar run).entryTime = run.entryTime ∧
      (barStep fee a bar run).tradeLog = run.tradeLog) := by
  obtain ⟨equity, hmark⟩ := markToMarket_cases bar run
  have hfill := fill_cases fee a bar (markToMarket bar run)
  rw [barStep]
  rw [hmark] at hfill ⊢
  rcases hfill with ⟨ha, hlong, hfill⟩ | ⟨ha, hlong, hfill⟩ | ⟨ha, hfill⟩ <;> rw [hfill]
  · exact Or.inl ⟨ha, hlong, rfl, rfl, rfl, rfl⟩
  · exact Or.inr (Or.inl ⟨ha, hlong, rfl, rfl⟩)
  · exact Or.inr (Or.inr ⟨ha, rfl, rfl, rfl, rfl⟩)

/-- An ignored action is a hold. -/
lemma barStep_of_ignored {a : Action} {bar : Bar K} {run : Run K} (h : Ignored run.longPos a) :
    barStep fee a bar run = barStep fee .hold bar run := by
  obtain ⟨equity, hmark⟩ := markToMarket_cases bar run
  have hfill : fill fee a bar (markToMarket bar run)
      = fill fee .hold bar (markToMarket bar run) := by
    rw [hmark]
    cases a with
    | hold => rfl
    | buy =>
      have hlong : run.longPos = true := h
      simp [fill, hlong]
    | sell =>
      have hlong : run.longPos = false := h
      simp [fill, hlong]
  rw [barStep, hfill]
  rfl

/-! ## The position -/

/-- The position after one action. -/
def Action.apply (long : Bool) : Action → Bool
  | .hold => long
  | .buy => true
  | .sell => false

/-- The position that the actions lead to, from a flat one. -/
def position (actions : List Action) : Bool := actions.foldl Action.apply false

omit [Field K] [LinearOrder K] in
lemma position_concat (actions : List Action) (a : Action) :
    position (actions ++ [a]) = a.apply (position actions) := by
  rw [position, List.foldl_append]
  rfl

lemma barStep_longPos (a : Action) (bar : Bar K) (run : Run K) :
    (barStep fee a bar run).longPos = a.apply run.longPos := by
  rcases barStep_cases fee a bar run with ⟨ha, -, hpos, -⟩ | ⟨ha, -, hpos, -⟩ | ⟨ha, hpos, -⟩
  · rw [hpos, ha]
    rfl
  · rw [hpos, ha]
    rfl
  · rw [hpos]
    rcases ha with ha | ha
    · rw [ha]
      rfl
    · cases a with
      | hold => rfl
      | buy => exact ha
      | sell => exact ha

/-- The flag of the loop is the position of the actions so far. -/
lemma runAt_longPos : ∀ i ≤ bars.length,
    (runAt strategy fee state bars i).longPos
      = position ((emitted strategy state bars).take i) := by
  refine runAt_induction strategy fee state bars rfl ?_
  intro i a bar _ ha hstep hrun
  rw [hstep, barStep_longPos, hrun, List.take_add_one, ha]
  exact (position_concat _ a).symm

/-! ## The report -/

/-- The report of a run that is over. -/
def report (sqrt : K → K) (annualization : K) (name : String) (bars : List (Bar K))
    (first last : Bar K) (run : Run K) : BacktestReport K where
  strategy := name
  bars := bars.length
  trades := run.tradeLog.length
  totalReturnPct := (run.equity - 1) * 100
  buyHoldReturnPct := (last.close / first.close - 1) * 100
  maxDrawdownPct := run.maxDrawdownPct
  sharpe := sharpeRatio sqrt annualization run.barReturns
  winRatePct := winRate run.tradeLog
  tradeLog := run.tradeLog

/-- The report is read off the run after the last bar, its position closed. -/
lemma runBacktest_eq (sqrt : K → K) (commissionPct annualization : K) {first last : Bar K}
    (hlen : 2 ≤ bars.length) (hfirst : bars.head? = some first)
    (hlast : bars.getLast? = some last) :
    runBacktest sqrt strategy state bars commissionPct annualization =
      report sqrt annualization strategy.name bars first last
        (closeAtEnd (commissionPct / 100) last
          (runAt strategy (commissionPct / 100) state bars bars.length)) := by
  have hne : bars ≠ [] := List.ne_nil_of_length_pos (by omega)
  have hhead : bars.head hne = first := by
    rw [List.head?_eq_some_head hne] at hfirst
    exact Option.some.inj hfirst
  have hback : bars.getLast hne = last := by
    rw [List.getLast?_eq_some_getLast hne] at hlast
    exact Option.some.inj hlast
  rw [runBacktest, dif_neg (by omega), runAt, List.take_length, opening, hfirst, report]
  simp only [hhead, hback]
  rfl

end

end Algo
end TInvest
