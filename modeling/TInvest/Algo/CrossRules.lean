import TInvest.Algo.Crossovers

/-!
# What the crossovers compare

A crossover takes a reading after each bar: none while an indicator is not ready, else whether the
fast line is above. Its decision is a function of two readings in a row (`ReadsCross.emitted`), so
a strategy whose readings have a batch definition is a batch rule (`exponentialCrosses_batch`).
-/

namespace TInvest
namespace Algo

open Lib Lib.Mealy

variable {K : Type*} {σ : Type*}

/-! ## Readings -/

/-- The decision between two readings in a row. -/
def Cross.between : Option Bool → Option Bool → Action
  | some false, some true => .buy
  | some true, some false => .sell
  | _, _ => .hold

/-- What a crossover remembers of a reading. -/
def Cross.ofReading : Option Bool → Cross
  | none => {}
  | some above => { prev := above, hasPrev := true }

lemma Cross.signal_ofReading {before now : Option Bool} (h : before.isSome → now.isSome) :
    (Cross.ofReading before).signal now = (Cross.ofReading now, Cross.between before now) := by
  cases before with
  | none =>
    cases now with
    | none => rfl
    | some above => rfl
  | some prev =>
    cases now with
    | none => exact absurd (h rfl) (by simp)
    | some above => cases prev <;> cases above <;> rfl

/-- The strategy signals on a reading of its new state, and a reading that is there stays. -/
structure ReadsCross (strategy : Strategy σ K) (cross : σ → Cross) (reading : σ → Option Bool) :
    Prop where
  signals : ∀ s bar, (cross (strategy.onBar s bar).1, (strategy.onBar s bar).2)
    = (cross s).signal (reading (strategy.onBar s bar).1)
  stays : ∀ s bar, (reading s).isSome → (reading (strategy.onBar s bar).1).isSome

section

variable {strategy : Strategy σ K} {cross : σ → Cross} {reading : σ → Option Bool} {state : σ}

/-- The crossover remembers the last reading. -/
lemma ReadsCross.after (h : ReadsCross strategy cross reading)
    (hfresh : cross state = Cross.ofReading (reading state)) (bars : List (Bar K)) :
    cross (after strategy.onBar state bars)
      = Cross.ofReading (reading (after strategy.onBar state bars)) := by
  induction bars using List.reverseRecOn with
  | nil => exact hfresh
  | append_singleton bars bar ih =>
    have hsignal := h.signals (Mealy.after strategy.onBar state bars) bar
    rw [ih, Cross.signal_ofReading (h.stays _ bar)] at hsignal
    rw [after_concat]
    exact congrArg Prod.fst hsignal

/-- **The decisions of a crossover** are the changes of its readings. -/
theorem ReadsCross.emitted (h : ReadsCross strategy cross reading)
    (hfresh : cross state = Cross.ofReading (reading state)) {bars : List (Bar K)} {n : ℕ}
    (hn : n < bars.length) :
    (emitted strategy state bars)[n]? =
      some (Cross.between (reading (Mealy.after strategy.onBar state (bars.take n)))
        (reading (Mealy.after strategy.onBar state (bars.take (n + 1))))) := by
  have hbar := List.getElem?_eq_getElem hn
  have htake : bars.take (n + 1) = bars.take n ++ [bars[n]] := by
    rw [List.take_add_one, hbar]
    rfl
  have hsignal := h.signals (Mealy.after strategy.onBar state (bars.take n)) bars[n]
  rw [h.after hfresh, Cross.signal_ofReading (h.stays _ bars[n])] at hsignal
  rw [emitted_getElem? strategy state hbar, htake, after_concat]
  exact congrArg some (congrArg Prod.snd hsignal)

end

section

variable [LinearOrder K]

/-- The cross of two lines at bar number `n`, after a warm-up. -/
def lineCross (warmup : ℕ) (A B : ℕ → K) (n : ℕ) : Action :=
  if warmup < n ∧ B n < A n ∧ A (n - 1) ≤ B (n - 1) then .buy
  else if warmup < n ∧ A n ≤ B n ∧ B (n - 1) < A (n - 1) then .sell
  else .hold

/-- The reading of two lines that start after a warm-up. -/
def lineReading (warmup : ℕ) (A B : ℕ → K) (n : ℕ) : Option Bool :=
  if warmup ≤ n then some (decide (B n < A n)) else none

lemma between_lineReading (warmup : ℕ) (A B : ℕ → K) (n : ℕ) :
    Cross.between (lineReading warmup A B n) (lineReading warmup A B (n + 1))
      = lineCross warmup A B (n + 1) := by
  rw [lineReading, lineReading, lineCross]
  simp only [Nat.add_sub_cancel, Order.lt_add_one_iff]
  by_cases hlate : warmup ≤ n
  · have hnext : warmup ≤ n + 1 := by omega
    rw [if_pos hlate, if_pos hnext]
    rcases lt_or_ge (B n) (A n) with hbefore | hbefore <;>
      rcases lt_or_ge (B (n + 1)) (A (n + 1)) with hnow | hnow <;>
      simp [Cross.between, hlate, hbefore, hnow, not_lt.mpr, not_le.mpr]
  · rw [if_neg hlate]
    simp [Cross.between, hlate]

end

/-! ## The readings of the three strategies -/

variable [Field K] [LinearOrder K]

/-- The reading of `SmaCross`. -/
def SmaCross.reading (s : SmaCross K) : Option Bool :=
  if s.slow.ready then some (decide (s.slow.value < s.fast.value)) else none

/-- The reading of `EmaCross`. -/
def EmaCross.reading (s : EmaCross K) : Option Bool :=
  if s.slow.ready && s.fast.ready then some (decide (s.slow.value < s.fast.value)) else none

/-- The reading of `MacdCross`. -/
def MacdCross.reading (s : MacdCross K) : Option Bool :=
  if s.macd.ready then some (decide (0 < s.macd.histogram)) else none

lemma SmaCross.onBar_eq (s : SmaCross K) (bar : Bar K) :
    ((SmaCross.onBar s bar).1.cross, (SmaCross.onBar s bar).2)
      = s.cross.signal (SmaCross.onBar s bar).1.reading := rfl

lemma EmaCross.onBar_eq (s : EmaCross K) (bar : Bar K) :
    ((EmaCross.onBar s bar).1.cross, (EmaCross.onBar s bar).2)
      = s.cross.signal (EmaCross.onBar s bar).1.reading := rfl

lemma MacdCross.onBar_eq (s : MacdCross K) (bar : Bar K) :
    ((MacdCross.onBar s bar).1.cross, (MacdCross.onBar s bar).2)
      = s.cross.signal (MacdCross.onBar s bar).1.reading := rfl

omit [LinearOrder K] in
lemma Ema.ready_push {e : Ema K} (h : e.ready = true) (v : K) : (e.push v).ready = true := by
  rw [push, if_pos h]
  exact h

/-! ## Batch rules -/

namespace EmaCross

lemma readsCross (fast slow : ℕ) :
    ReadsCross (strategy (K := K) fast slow) EmaCross.cross reading where
  signals := onBar_eq
  stays := by
    intro s bar hsome
    rw [reading, Option.isSome_ite, Bool.and_eq_true] at hsome ⊢
    exact ⟨Ema.ready_push hsome.1 _, Ema.ready_push hsome.2 _⟩

/-- The averages of the strategy are those of the closes. -/
lemma after_averages (fast slow : ℕ) (bars : List (Bar K)) :
    (after (strategy fast slow).onBar (make fast slow) bars).fast
        = .of fast (bars.map Bar.close) ∧
      (after (strategy fast slow).onBar (make fast slow) bars).slow
        = .of slow (bars.map Bar.close) := by
  induction bars using List.reverseRecOn with
  | nil => exact ⟨rfl, rfl⟩
  | append_singleton bars bar ih =>
    rw [after_concat, List.map_append, List.map_singleton, Ema.of_concat, Ema.of_concat, ← ih.1,
      ← ih.2]
    exact ⟨rfl, rfl⟩

lemma after_reading {fast slow : ℕ} (hfast : 1 ≤ fast) (hslow : 1 ≤ slow) {bars : List (Bar K)}
    {n : ℕ} (hn : n ≤ bars.length) :
    (after (strategy fast slow).onBar (make fast slow) (bars.take n)).reading =
      lineReading (max fast slow) (fun m => Ema.batch fast ((bars.map Bar.close).take m))
        (fun m => Ema.batch slow ((bars.map Bar.close).take m)) n := by
  obtain ⟨hf, hs⟩ := after_averages fast slow (bars.take n)
  have hlen : ((bars.map Bar.close).take n).length = n := by
    rw [List.length_take, List.length_map, min_eq_left hn]
  rw [reading, hf, hs, List.map_take, Ema.of_ready hfast, Ema.of_ready hslow, hlen, lineReading]
  by_cases hready : max fast slow ≤ n
  · have hboth := max_le_iff.mp hready
    rw [if_pos hready, if_pos (by simpa using hboth.symm),
      Ema.of_value_eq_batch hfast (by omega), Ema.of_value_eq_batch hslow (by omega)]
  · have hnot : ¬ (slow ≤ n ∧ fast ≤ n) := fun h => hready (max_le_iff.mpr h.symm)
    rw [if_neg hready, if_neg (by simpa using hnot)]

end EmaCross

namespace Macd

/-- The differences of the batch averages, from the bar on that both of them have. -/
def batchDifferences (fast slow : ℕ) (vs : List K) : List K :=
  (List.range' (max fast slow) (vs.length + 1 - max fast slow)).map fun n =>
    Ema.batch fast (vs.take n) - Ema.batch slow (vs.take n)

omit [LinearOrder K] in
lemma differences_eq_batch {fast slow : ℕ} (hf : 1 ≤ fast) (hs : 1 ≤ slow) (vs : List K) :
    differences fast slow vs = batchDifferences fast slow vs := by
  refine List.map_congr_left fun n hn => ?_
  have hmem := List.mem_range'_1.mp hn
  have hlen : (vs.take n).length = n := List.length_take_of_le (by omega)
  rw [Ema.of_value_eq_batch hf (by omega), Ema.of_value_eq_batch hs (by omega)]

end Macd

namespace MacdCross

lemma readsCross (fast slow signal : ℕ) :
    ReadsCross (strategy (K := K) fast slow signal) MacdCross.cross reading where
  signals := onBar_eq
  stays := by
    intro s bar hsome
    rw [reading, Option.isSome_ite, Macd.ready] at hsome ⊢
    show (s.macd.push bar.close).signalLine.ready = true
    rw [Macd.push]
    simp only
    split
    · exact Ema.ready_push hsome _
    · exact hsome

/-- The indicator of the strategy is the one of the closes. -/
lemma after_macd (fast slow signal : ℕ) (bars : List (Bar K)) :
    (after (strategy fast slow signal).onBar (make fast slow signal) bars).macd
      = .of fast slow signal (bars.map Bar.close) := by
  induction bars using List.reverseRecOn with
  | nil => rfl
  | append_singleton bars bar ih =>
    rw [after_concat, List.map_append, List.map_singleton, Macd.of, List.foldl_concat, ← Macd.of,
      ← ih]
    rfl

lemma after_reading [IsStrictOrderedRing K] {fast slow signal : ℕ} (hfast : 1 ≤ fast)
    (hslow : 1 ≤ slow) (hsignal : 1 ≤ signal) {bars : List (Bar K)} {n : ℕ}
    (hn : n ≤ bars.length) :
    (after (strategy fast slow signal).onBar (make fast slow signal) (bars.take n)).reading =
      lineReading (max fast slow + signal - 1)
        (fun m => Ema.batch fast ((bars.map Bar.close).take m)
          - Ema.batch slow ((bars.map Bar.close).take m))
        (fun m => Ema.batch signal
          (Macd.batchDifferences fast slow ((bars.map Bar.close).take m))) n := by
  have hlen : ((bars.map Bar.close).take n).length = n := by
    rw [List.length_take, List.length_map, min_eq_left hn]
  have hready := Macd.of_ready hfast hslow hsignal ((bars.map Bar.close).take n)
  rw [hlen] at hready
  rw [reading, after_macd, List.map_take, lineReading]
  by_cases hlate : max fast slow + signal - 1 ≤ n
  · have hsig : signal ≤ (Macd.differences fast slow ((bars.map Bar.close).take n)).length := by
      rw [Macd.length_differences, hlen]
      omega
    have hboth : fast ≤ n ∧ slow ≤ n := by omega
    rw [if_pos (hready.mpr hlate), if_pos hlate]
    refine congrArg some (decide_eq_decide.mpr ?_)
    rw [Macd.histogram, sub_pos, Macd.of_macd hfast hslow, Macd.of_signal hfast hslow,
      Ema.of_value_eq_batch hsignal hsig, Macd.differences_eq_batch hfast hslow,
      Ema.of_value_eq_batch hfast (by omega), Ema.of_value_eq_batch hslow (by omega)]
  · rw [if_neg (fun h => hlate (hready.mp h)), if_neg hlate]

end MacdCross

/-- **The exponential crosses are batch rules.** For all periods and every sequence of bars,
`EmaCross` on a fresh instance is the cross of the batch averages of the closes, from the bar after
both windows are filled; and `MacdCross` is the cross of the difference of two batch averages with
the batch average of these differences, from the bar after the signal line is filled. -/
theorem exponentialCrosses_batch [IsStrictOrderedRing K] {fast slow signal : ℕ} (hfast : 1 ≤ fast)
    (hslow : 1 ≤ slow) (hsignal : 1 ≤ signal) (bars : List (Bar K)) {n : ℕ}
    (hn : n < bars.length) :
    (emitted (EmaCross.strategy fast slow) (EmaCross.make fast slow) bars)[n]? =
      some (lineCross (max fast slow)
        (fun m => Ema.batch fast ((bars.map Bar.close).take m))
        (fun m => Ema.batch slow ((bars.map Bar.close).take m)) (n + 1)) ∧
    (emitted (MacdCross.strategy fast slow signal) (MacdCross.make fast slow signal) bars)[n]? =
      some (lineCross (max fast slow + signal - 1)
        (fun m => Ema.batch fast ((bars.map Bar.close).take m)
          - Ema.batch slow ((bars.map Bar.close).take m))
        (fun m => Ema.batch signal
          (Macd.batchDifferences fast slow ((bars.map Bar.close).take m))) (n + 1)) := by
  constructor
  · rw [(EmaCross.readsCross fast slow).emitted rfl hn, EmaCross.after_reading hfast hslow hn.le,
      EmaCross.after_reading hfast hslow hn, between_lineReading]
  · rw [(MacdCross.readsCross fast slow signal).emitted rfl hn,
      MacdCross.after_reading hfast hslow hsignal hn.le,
      MacdCross.after_reading hfast hslow hsignal hn, between_lineReading]

/-- A fall: both rules sell on the fourth of four closes. -/
theorem exponentialCrosses_batch_fall :
    lineCross 2 (fun m => Ema.batch 1 ([4, 2, 5, (1 : ℚ)].take m))
        (fun m => Ema.batch 2 ([4, 2, 5, (1 : ℚ)].take m)) 4 = .sell ∧
      lineCross 3
        (fun m => Ema.batch 1 ([4, 2, 5, (1 : ℚ)].take m) - Ema.batch 2 ([4, 2, 5, (1 : ℚ)].take m))
        (fun m => Ema.batch 2 (Macd.batchDifferences 1 2 ([4, 2, 5, (1 : ℚ)].take m))) 4
        = .sell := by
  obtain ⟨hema, hmacd⟩ := @exponentialCrosses_batch ℚ _ _ _ 1 2 2 (by decide) (by decide)
    (by decide) ([4, 2, 5, (1 : ℚ)].map fun close => ⟨0, close, close, close, close, 0⟩) 3
    (by decide)
  have hemaSell : (emitted (EmaCross.strategy 1 2) (EmaCross.make 1 2)
      ([4, 2, 5, (1 : ℚ)].map fun close => ⟨0, close, close, close, close, 0⟩))[3]?
      = some .sell := by decide +kernel
  have hmacdSell : (emitted (MacdCross.strategy 1 2 2) (MacdCross.make 1 2 2)
      ([4, 2, 5, (1 : ℚ)].map fun close => ⟨0, close, close, close, close, 0⟩))[3]?
      = some .sell := by decide +kernel
  rw [hemaSell] at hema
  rw [hmacdSell] at hmacd
  exact ⟨(Option.some.inj hema).symm, (Option.some.inj hmacd).symm⟩

end Algo
end TInvest
