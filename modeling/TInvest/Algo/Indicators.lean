import Mathlib
import TInvest.Lib.Numerals

/-!
# Streaming indicators

The classes of `include/tinvest/algo/indicators.hpp`. Readings are `double` in the source and
elements of an ordered field here; a `std::deque` is a list with its front at the head; a period
is a natural number. `sqrt` is a parameter of the bands.

With a period of 0 an average divides by an empty window: the quotient is not a number in the
source, and 0 here. Results that depend on the quotient ask for a period of at least 1.
-/

namespace TInvest
namespace Algo

variable {K : Type*}

section

variable [Field K]

/-! ## Moving averages -/

/-- `Sma`. -/
structure Sma (K : Type*) [Field K] where
  period : ℕ
  window : List K := []
  sum : K := 0

namespace Sma

def push (s : Sma K) (v : K) : Sma K :=
  let window := s.window ++ [v]
  let sum := s.sum + v
  if s.period < window.length then
    { s with window := window.tail, sum := sum - window.headD 0 }
  else { s with window := window, sum := sum }

def ready (s : Sma K) : Bool := s.window.length == s.period

def value (s : Sma K) : K := s.sum / s.window.length

end Sma

/-- `Ema`, seeded with the average of the first `period` values. -/
structure Ema (K : Type*) [Field K] where
  period : ℕ
  k : K
  seed : Sma K
  ready : Bool := false
  value : K := 0

namespace Ema

/-- The constructor. -/
def make (period : ℕ) : Ema K where
  period := period
  k := 2 / (period + 1)
  seed := { period := period }

def push (e : Ema K) (v : K) : Ema K :=
  if e.ready then { e with value := v * e.k + e.value * (1 - e.k) }
  else
    let seed := e.seed.push v
    if seed.ready then { e with seed := seed, value := seed.value, ready := true }
    else { e with seed := seed }

end Ema

/-- `Macd`: the difference of two averages, with an average of it as signal line. -/
structure Macd (K : Type*) [Field K] where
  fast : Ema K
  slow : Ema K
  signalLine : Ema K

namespace Macd

/-- The constructor. -/
def make (fast : ℕ := 12) (slow : ℕ := 26) (signal : ℕ := 9) : Macd K :=
  ⟨.make fast, .make slow, .make signal⟩

def push (m : Macd K) (close : K) : Macd K :=
  let fast := m.fast.push close
  let slow := m.slow.push close
  { fast := fast
    slow := slow
    signalLine :=
      if fast.ready && slow.ready then m.signalLine.push (fast.value - slow.value)
      else m.signalLine }

def ready (m : Macd K) : Bool := m.signalLine.ready

def macd (m : Macd K) : K := m.fast.value - m.slow.value

def signal (m : Macd K) : K := m.signalLine.value

def histogram (m : Macd K) : K := m.macd - m.signal

end Macd

/-! ## Bands and channels -/

/-- `Bollinger`. -/
structure Bollinger (K : Type*) [Field K] where
  period : ℕ := 20
  mult : K := 2
  window : List K := []

namespace Bollinger

def push (b : Bollinger K) (v : K) : Bollinger K :=
  let window := b.window ++ [v]
  if b.period < window.length then { b with window := window.tail }
  else { b with window := window }

def ready (b : Bollinger K) : Bool := b.window.length == b.period

def middle (b : Bollinger K) : K := b.window.sum / b.window.length

def stddev (sqrt : K → K) (b : Bollinger K) : K :=
  let m := b.middle
  sqrt ((b.window.map fun v => (v - m) * (v - m)).sum / b.window.length)

def upper (sqrt : K → K) (b : Bollinger K) : K := b.middle + b.mult * b.stddev sqrt

def lower (sqrt : K → K) (b : Bollinger K) : K := b.middle - b.mult * b.stddev sqrt

end Bollinger

end

section

variable [LinearOrder K]

/-- `Donchian`. -/
structure Donchian (K : Type*) where
  period : ℕ
  highs : List K := []
  lows : List K := []

namespace Donchian

def push (d : Donchian K) (high low : K) : Donchian K :=
  let highs := d.highs ++ [high]
  let lows := d.lows ++ [low]
  if d.period < highs.length then { d with highs := highs.tail, lows := lows.tail }
  else { d with highs := highs, lows := lows }

def ready (d : Donchian K) : Bool := d.highs.length == d.period

/-- `max_element`, which an empty queue does not have. -/
def upper (d : Donchian K) : Option K := d.highs.max?

def lower (d : Donchian K) : Option K := d.lows.min?

end Donchian

end

/-! ## Wilder's RSI -/

section

variable [Field K] [LinearOrder K]

/-- `Rsi`. -/
structure Rsi (K : Type*) [Field K] where
  period : ℕ := 14
  prev : K := 0
  hasPrev : Bool := false
  warmup : ℕ := 0
  gainSum : K := 0
  lossSum : K := 0
  avgGain : K := 0
  avgLoss : K := 0
  ready : Bool := false

namespace Rsi

/-- What a change of the price adds to the gains. -/
def gain (delta : K) : K := if 0 < delta then delta else 0

/-- What it adds to the losses. -/
def loss (delta : K) : K := if delta < 0 then -delta else 0

/-- A change of the price: during the warm-up it is summed up, afterwards smoothed. -/
def change (r : Rsi K) (delta : K) : Rsi K :=
  if r.warmup < r.period then
    let gainSum := r.gainSum + gain delta
    let lossSum := r.lossSum + loss delta
    if r.warmup + 1 = r.period then
      { r with
        gainSum := gainSum
        lossSum := lossSum
        warmup := r.warmup + 1
        avgGain := gainSum / r.period
        avgLoss := lossSum / r.period
        ready := true }
    else { r with gainSum := gainSum, lossSum := lossSum, warmup := r.warmup + 1 }
  else
    { r with
      avgGain := (r.avgGain * (r.period - 1) + gain delta) / r.period
      avgLoss := (r.avgLoss * (r.period - 1) + loss delta) / r.period }

def push (r : Rsi K) (close : K) : Rsi K :=
  if r.hasPrev then { r with prev := close }.change (close - r.prev)
  else { r with prev := close, hasPrev := true }

def value (r : Rsi K) : K :=
  if r.avgLoss = 0 then 100
  else
    let rs := r.avgGain / r.avgLoss
    100 - 100 / (1 + rs)

end Rsi

end

end Algo
end TInvest
