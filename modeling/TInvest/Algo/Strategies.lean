import TInvest.Algo.Backtest
import TInvest.Algo.Indicators

/-!
# The strategies

The classes of `include/tinvest/algo/strategies.hpp`: for each the state of its object, a fresh
one, and the `Strategy`. The three crossovers end in the same lines: they compare a reading with
the one before and signal when it has changed; `Cross` is that part of their objects.
-/

namespace TInvest
namespace Algo

variable {K : Type*}

/-! ## Crossovers -/

/-- `prev_above_` or `prev_positive_`, and `has_prev_`. -/
structure Cross where
  prev : Bool := false
  hasPrev : Bool := false

/-- The end of `on_bar` of a crossover: `none` when an indicator is not ready, else whether the
fast one is above. -/
def Cross.signal (c : Cross) : Option Bool → Cross × Action
  | none => (c, .hold)
  | some above =>
    ({ prev := above, hasPrev := true },
      if c.hasPrev && (above && !c.prev) then .buy
      else if c.hasPrev && (!above && c.prev) then .sell
      else .hold)

section

variable [Field K] [LinearOrder K]

/-- `SmaCross`. -/
structure SmaCross (K : Type*) [Field K] where
  fast : Sma K
  slow : Sma K
  cross : Cross := {}

namespace SmaCross

def make (fast : ℕ := 20) (slow : ℕ := 50) : SmaCross K where
  fast := { period := fast }
  slow := { period := slow }

def onBar (s : SmaCross K) (bar : Bar K) : SmaCross K × Action :=
  let fast := s.fast.push bar.close
  let slow := s.slow.push bar.close
  let (cross, a) := s.cross.signal
    (if slow.ready then some (decide (slow.value < fast.value)) else none)
  ({ fast := fast, slow := slow, cross := cross }, a)

def strategy (fast : ℕ := 20) (slow : ℕ := 50) : Strategy (SmaCross K) K where
  name := "SMA cross " ++ toString fast ++ "/" ++ toString slow
  onBar := onBar

end SmaCross

/-- `EmaCross`. -/
structure EmaCross (K : Type*) [Field K] where
  fast : Ema K
  slow : Ema K
  cross : Cross := {}

namespace EmaCross

def make (fast : ℕ := 12) (slow : ℕ := 26) : EmaCross K where
  fast := .make fast
  slow := .make slow

def onBar (s : EmaCross K) (bar : Bar K) : EmaCross K × Action :=
  let fast := s.fast.push bar.close
  let slow := s.slow.push bar.close
  let (cross, a) := s.cross.signal
    (if slow.ready && fast.ready then some (decide (slow.value < fast.value)) else none)
  ({ fast := fast, slow := slow, cross := cross }, a)

def strategy (fast : ℕ := 12) (slow : ℕ := 26) : Strategy (EmaCross K) K where
  name := "EMA cross " ++ toString fast ++ "/" ++ toString slow
  onBar := onBar

end EmaCross

/-- `MacdCross`. -/
structure MacdCross (K : Type*) [Field K] where
  macd : Macd K
  cross : Cross := {}

namespace MacdCross

def make (fast : ℕ := 12) (slow : ℕ := 26) (signal : ℕ := 9) : MacdCross K where
  macd := .make fast slow signal

def onBar (s : MacdCross K) (bar : Bar K) : MacdCross K × Action :=
  let macd := s.macd.push bar.close
  let (cross, a) := s.cross.signal
    (if macd.ready then some (decide (0 < macd.histogram)) else none)
  ({ macd := macd, cross := cross }, a)

def strategy (fast : ℕ := 12) (slow : ℕ := 26) (signal : ℕ := 9) : Strategy (MacdCross K) K where
  name := "MACD " ++ toString fast ++ "/" ++ toString slow ++ "/" ++ toString signal
  onBar := onBar

end MacdCross

/-! ## Mean reversion -/

/-- `RsiReversion`. -/
structure RsiReversion (K : Type*) [Field K] where
  rsi : Rsi K
  lower : K := 30
  upper : K := 70

namespace RsiReversion

def onBar (s : RsiReversion K) (bar : Bar K) : RsiReversion K × Action :=
  let rsi := s.rsi.push bar.close
  ({ s with rsi := rsi },
    if !rsi.ready then .hold
    else if rsi.value < s.lower then .buy
    else if s.upper < rsi.value then .sell
    else .hold)

def strategy (period : ℕ := 14) : Strategy (RsiReversion K) K where
  name := "RSI(" ++ toString period ++ ") reversion"
  onBar := onBar

end RsiReversion

/-- `BollingerReversion`. -/
structure BollingerReversion (K : Type*) [Field K] where
  bb : Bollinger K

namespace BollingerReversion

def make (period : ℕ := 20) (mult : K := 2) : BollingerReversion K where
  bb := { period := period, mult := mult }

def onBar (sqrt : K → K) (s : BollingerReversion K) (bar : Bar K) : BollingerReversion K × Action :=
  let bb := s.bb.push bar.close
  ({ bb := bb },
    if !bb.ready then .hold
    else if bar.close < bb.lower sqrt then .buy
    else if bb.middle < bar.close then .sell
    else .hold)

def strategy (sqrt : K → K) (period : ℕ := 20) : Strategy (BollingerReversion K) K where
  name := "Bollinger(" ++ toString period ++ ") reversion"
  onBar := onBar sqrt

end BollingerReversion

end

/-! ## Breakouts -/

section

variable [LinearOrder K]

/-- `DonchianBreakout`. -/
structure DonchianBreakout (K : Type*) where
  entry : Donchian K
  exit : Donchian K

namespace DonchianBreakout

def make (entry : ℕ := 20) (exit : ℕ := 10) : DonchianBreakout K where
  entry := { period := entry }
  exit := { period := exit }

/-- Both comparisons are made before the bar enters the channels; the second has the last word. -/
def onBar (s : DonchianBreakout K) (bar : Bar K) : DonchianBreakout K × Action :=
  let a := if s.entry.ready && s.entry.upper.any (fun u => u < bar.close) then .buy else .hold
  let a := if s.exit.ready && s.exit.lower.any (fun l => bar.close < l) then .sell else a
  ({ entry := s.entry.push bar.high bar.low, exit := s.exit.push bar.high bar.low }, a)

def strategy (entry : ℕ := 20) (exit : ℕ := 10) : Strategy (DonchianBreakout K) K where
  name := "Donchian breakout " ++ toString entry ++ "/" ++ toString exit
  onBar := onBar

end DonchianBreakout

end

end Algo
end TInvest
