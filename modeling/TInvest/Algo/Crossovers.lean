import TInvest.Algo.Averages
import TInvest.Algo.Runs
import TInvest.Algo.Strategies

/-!
# The crossover strategies

* A crossover signals when its comparison differs from the remembered one, so the decisions it
  takes alternate (`FollowsCross.alternates`), and the backtester executes every entry of a
  strategy whose decisions alternate (`Alternates.executesEntries`).
* `SmaCross` compares as soon as the slow average is ready. That is the batch rule on full windows
  exactly when the comparison does not change while the fast window fills (`smaCross_batch_iff`).
-/

namespace TInvest
namespace Algo

open Lib Lib.SlidingWindow Lib.Mealy

variable {K : Type*} {σ : Type*}

/-! ## Alternating decisions -/

/-- The actions that are not holds. -/
def decisions (actions : List Action) : List Action := actions.filter (· ≠ .hold)

/-- No two decisions in a row are the same. -/
def Alternates (actions : List Action) : Prop := (decisions actions).IsChain (· ≠ ·)

lemma decisions_concat_hold (actions : List Action) :
    decisions (actions ++ [.hold]) = decisions actions := by
  simp [decisions]

lemma decisions_concat (actions : List Action) {a : Action} (ha : a ≠ .hold) :
    decisions (actions ++ [a]) = decisions actions ++ [a] := by
  simp [decisions, ha]

/-- A decision can follow any other one. -/
lemma alternates_concat (actions : List Action) {a : Action} (ha : a ≠ .hold) :
    Alternates (actions ++ [a]) ↔ Alternates actions ∧ (decisions actions).getLast? ≠ some a := by
  rw [Alternates, decisions_concat actions ha, List.isChain_append, Alternates]
  simp only [List.isChain_singleton, List.head?_cons, Option.mem_def, Option.some_inj, true_and]
  constructor
  · rintro ⟨hchain, hseam⟩
    exact ⟨hchain, fun hlast => hseam a hlast a rfl rfl⟩
  · rintro ⟨hchain, hlast⟩
    refine ⟨hchain, ?_⟩
    rintro b hb c rfl heq
    rw [heq] at hb
    exact hlast hb

/-- The position is long when the last decision was to buy. -/
lemma position_eq_true_iff (actions : List Action) :
    position actions = true ↔ (decisions actions).getLast? = some .buy := by
  induction actions using List.reverseRecOn with
  | nil => simp [position, decisions]
  | append_singleton actions a ih =>
    rw [position_concat]
    cases a with
    | hold => rwa [decisions_concat_hold]
    | buy => simp [decisions_concat, Action.apply]
    | sell => simp [decisions_concat, Action.apply]

/-- A last decision is a buy or a sell. -/
lemma decisions_eq_nil {actions : List Action} (hbuy : (decisions actions).getLast? ≠ some .buy)
    (hsell : (decisions actions).getLast? ≠ some .sell) : decisions actions = [] := by
  rw [← List.getLast?_eq_none_iff]
  cases hlast : (decisions actions).getLast? with
  | none => rfl
  | some a =>
    cases a with
    | hold => exact absurd (List.mem_of_getLast? hlast) (by simp [decisions])
    | buy => exact absurd hlast hbuy
    | sell => exact absurd hlast hsell

/-- Of alternating decisions only a sell before the first buy has no effect. -/
lemma Alternates.ignored {actions : List Action} {a : Action} (h : Alternates (actions ++ [a]))
    (hign : Ignored (position actions) a) : a = .sell ∧ .buy ∉ actions := by
  cases a with
  | hold => exact absurd hign id
  | buy =>
    have hlast := (position_eq_true_iff actions).mp hign
    exact absurd hlast ((alternates_concat actions (by decide)).mp h).2
  | sell =>
    have hflat : position actions = false := hign
    have hsell := ((alternates_concat actions (by decide)).mp h).2
    have hbuy : (decisions actions).getLast? ≠ some .buy := by
      rw [ne_eq, ← position_eq_true_iff, hflat]
      decide
    refine ⟨rfl, ?_⟩
    intro hmem
    have hin : Action.buy ∈ decisions actions := List.mem_filter.mpr ⟨hmem, by decide⟩
    rw [decisions_eq_nil hbuy hsell] at hin
    exact absurd hin List.not_mem_nil

/-! ## What the backtester makes of them -/

section

variable [Field K] [LinearOrder K]

/-- The decisions of the strategy alternate, the backtester reports a trade for each buy, and the
only action it can ignore is a sell before the first buy. -/
structure ExecutesEntries (strategy : Strategy σ K) (state : σ) : Prop where
  alternates : ∀ bars, Alternates (emitted strategy state bars)
  trades : ∀ bars, 2 ≤ bars.length → ∀ (sqrt : K → K) (commissionPct annualization : K),
    (runBacktest sqrt strategy state bars commissionPct annualization).trades
      = (emitted strategy state bars).count .buy
  ignored : ∀ bars fee i a, (emitted strategy state bars)[i]? = some a →
    Ignored (runAt strategy fee state bars i).longPos a →
    a = .sell ∧ .buy ∉ (emitted strategy state bars).take i

variable {strategy : Strategy σ K} {state : σ}

/-- The actions up to one of them alternate when all of them do. -/
lemma Alternates.take_succ {actions : List Action} (h : Alternates actions) {i : ℕ} {a : Action}
    (ha : actions[i]? = some a) : Alternates (actions.take i ++ [a]) := by
  have hsplit : actions = (actions.take i ++ [a]) ++ actions.drop (i + 1) := by
    have htake : actions.take i ++ [a] = actions.take (i + 1) := by
      rw [List.take_add_one, ha]
      rfl
    rw [htake, List.take_append_drop]
  rw [hsplit, Alternates, decisions, List.filter_append] at h
  exact h.left_of_append

lemma ignored_of_alternates {bars : List (Bar K)} (h : Alternates (emitted strategy state bars))
    {fee : K} {i : ℕ} {a : Action} (ha : (emitted strategy state bars)[i]? = some a)
    (hign : Ignored (runAt strategy fee state bars i).longPos a) :
    a = .sell ∧ .buy ∉ (emitted strategy state bars).take i := by
  have hle : i ≤ bars.length := by
    rw [← length_emitted strategy state bars]
    exact (List.getElem?_eq_some_iff.mp ha).1.le
  rw [runAt_longPos strategy fee state bars i hle] at hign
  exact (h.take_succ ha).ignored hign

/-- The log has an entry for every buy so far, but for the one that is still open. -/
lemma runAt_count_buy {bars : List (Bar K)} (h : Alternates (emitted strategy state bars))
    (fee : K) : ∀ i ≤ bars.length,
    (runAt strategy fee state bars i).tradeLog.length
        + (if (runAt strategy fee state bars i).longPos then 1 else 0)
      = ((emitted strategy state bars).take i).count .buy := by
  refine runAt_induction strategy fee state bars rfl ?_
  intro i a bar _ ha hstep hcount
  rw [List.take_add_one, ha, Option.toList_some, List.count_append, ← hcount, hstep]
  rcases barStep_cases fee a bar (runAt strategy fee state bars i)
    with ⟨rfl, hflat, hpos, -, -, hlog⟩ | ⟨rfl, hlong, hpos, hlog⟩ | ⟨hskip, hpos, -, -, hlog⟩
  · rw [hpos, hlog, hflat]
    simp
  · rw [hpos, hlog, hlong]
    simp
  · have hnone : [a].count .buy = 0 := by
      rcases hskip with rfl | hign
      · rfl
      · rw [(ignored_of_alternates h ha hign).1]
        rfl
    rw [hpos, hlog, hnone, add_zero]

omit [LinearOrder K] in
lemma length_tradeLog_closeAtEnd (fee : K) (last : Bar K) (run : Run K) :
    (closeAtEnd fee last run).tradeLog.length
      = run.tradeLog.length + if run.longPos then 1 else 0 := by
  rw [closeAtEnd]
  split
  · rw [List.length_append]
    rfl
  · rfl

/-- **The backtester executes every entry of a strategy whose decisions alternate.** -/
theorem executesEntries_of_alternates (h : ∀ bars, Alternates (emitted strategy state bars)) :
    ExecutesEntries strategy state where
  alternates := h
  trades := by
    intro bars hlen sqrt commissionPct annualization
    have hne : bars ≠ [] := List.ne_nil_of_length_pos (by omega)
    rw [runBacktest_eq strategy state bars sqrt commissionPct annualization hlen
      (List.head?_eq_some_head hne) (List.getLast?_eq_some_getLast hne), report]
    simp only
    rw [length_tradeLog_closeAtEnd, runAt_count_buy (h bars) _ _ le_rfl, List.take_of_length_le]
    rw [length_emitted]
  ignored := fun bars _ _ _ ha hign => ignored_of_alternates (h bars) ha hign

end

/-! ## Crossovers alternate -/

/-- The strategy ends each bar with the signal of its crossover. -/
def FollowsCross (strategy : Strategy σ K) (cross : σ → Cross) : Prop :=
  ∀ s bar, ∃ reading,
    (cross (strategy.onBar s bar).1, (strategy.onBar s bar).2) = (cross s).signal reading

/-- What a crossover remembers of its decisions: after a buy it was above, after a sell it was
not. -/
def Remembers (c : Cross) (actions : List Action) : Prop :=
  ∀ a, (decisions actions).getLast? = some a → c.hasPrev = true ∧ (a = .buy ↔ c.prev = true)

/-- What a crossover with a reading can do. -/
lemma Cross.signal_cases (c : Cross) (above : Bool) :
    (c.signal (some above)).1 = { prev := above, hasPrev := true } ∧
      (((c.signal (some above)).2 = .buy ∧ above = true ∧ c.hasPrev = true ∧ c.prev = false) ∨
        ((c.signal (some above)).2 = .sell ∧ above = false ∧ c.hasPrev = true ∧ c.prev = true) ∨
        ((c.signal (some above)).2 = .hold ∧ (c.hasPrev = true → c.prev = above))) := by
  obtain ⟨prev, hasPrev⟩ := c
  cases hasPrev <;> cases prev <;> cases above <;> simp [Cross.signal]

/-- One bar of a crossover. -/
lemma Remembers.signal {c : Cross} {actions : List Action} (h : Remembers c actions)
    (halt : Alternates actions) (reading : Option Bool) :
    Remembers (c.signal reading).1 (actions ++ [(c.signal reading).2]) ∧
      Alternates (actions ++ [(c.signal reading).2]) := by
  cases reading with
  | none =>
    rw [Cross.signal, Remembers, Alternates, decisions_concat_hold]
    exact ⟨h, halt⟩
  | some above =>
    obtain ⟨hstate, hcases⟩ := c.signal_cases above
    rw [hstate, Remembers]
    rcases hcases with ⟨ha, habove, -, hprev⟩ | ⟨ha, habove, -, hprev⟩ | ⟨ha, hsame⟩
    · rw [ha, alternates_concat _ (by decide), decisions_concat _ (by decide)]
      have hlast : (decisions actions).getLast? ≠ some .buy := by
        intro hbuy
        have hprev' := (h _ hbuy).2.mp rfl
        exact absurd (hprev.symm.trans hprev') (by decide)
      refine ⟨?_, halt, hlast⟩
      simp [habove]
    · rw [ha, alternates_concat _ (by decide), decisions_concat _ (by decide)]
      have hlast : (decisions actions).getLast? ≠ some .sell := by
        intro hsell
        exact absurd ((h _ hsell).2.mpr hprev) (by decide)
      refine ⟨?_, halt, hlast⟩
      simp [habove]
    · rw [ha, Alternates, decisions_concat_hold]
      refine ⟨?_, halt⟩
      intro a hlast
      obtain ⟨hhas, hbuy⟩ := h a hlast
      rw [hbuy, hsame hhas]
      exact ⟨rfl, Iff.rfl⟩

/-- **The decisions of a crossover alternate.** -/
theorem FollowsCross.alternates {strategy : Strategy σ K} {cross : σ → Cross}
    (h : FollowsCross strategy cross) (state : σ) (bars : List (Bar K)) :
    Alternates (emitted strategy state bars) := by
  have hrun : Remembers (cross (after strategy.onBar state bars)) (emitted strategy state bars) ∧
      Alternates (emitted strategy state bars) := by
    induction bars using List.reverseRecOn with
    | nil => exact ⟨by simp [Remembers, emitted, outputs, decisions], List.isChain_nil⟩
    | append_singleton bars bar ih =>
      obtain ⟨reading, hreading⟩ := h (after strategy.onBar state bars) bar
      have hstep := ih.1.signal ih.2 reading
      rw [← hreading] at hstep
      rw [emitted, outputs_concat, after_concat]
      exact hstep
  exact hrun.2

section

variable [Field K] [LinearOrder K]

lemma SmaCross.followsCross (fast slow : ℕ) :
    FollowsCross (SmaCross.strategy (K := K) fast slow) SmaCross.cross :=
  fun _ _ => ⟨_, rfl⟩

lemma EmaCross.followsCross (fast slow : ℕ) :
    FollowsCross (EmaCross.strategy (K := K) fast slow) EmaCross.cross :=
  fun _ _ => ⟨_, rfl⟩

lemma MacdCross.followsCross (fast slow signal : ℕ) :
    FollowsCross (MacdCross.strategy (K := K) fast slow signal) MacdCross.cross :=
  fun _ _ => ⟨_, rfl⟩

/-- **The three crossovers have all their entries executed**, on fresh instances. -/
theorem crossovers_executesEntries (fast slow signal : ℕ) :
    ExecutesEntries (SmaCross.strategy (K := K) fast slow) (SmaCross.make fast slow) ∧
    ExecutesEntries (EmaCross.strategy (K := K) fast slow) (EmaCross.make fast slow) ∧
    ExecutesEntries (MacdCross.strategy (K := K) fast slow signal)
      (MacdCross.make fast slow signal) :=
  ⟨executesEntries_of_alternates ((SmaCross.followsCross fast slow).alternates _),
    executesEntries_of_alternates ((EmaCross.followsCross fast slow).alternates _),
    executesEntries_of_alternates ((MacdCross.followsCross fast slow signal).alternates _)⟩

end

/-! ## The golden cross -/

section

variable [Field K]

/-- The mean of the last closes. -/
def trailing (period : ℕ) (closes : List K) : K := mean (closes.rtake period)

variable [LinearOrder K]

/-- The cross of the averages `A` and `B` of the last `fast` and the last `slow` closes at bar
number `n`, after a warm-up. -/
def crossAction (warmup fast slow : ℕ) (closes : List K) (n : ℕ) : Action :=
  let A := fun m => trailing fast (closes.take m)
  let B := fun m => trailing slow (closes.take m)
  if warmup < n ∧ B n < A n ∧ A (n - 1) ≤ B (n - 1) then .buy
  else if warmup < n ∧ A n ≤ B n ∧ B (n - 1) < A (n - 1) then .sell
  else .hold

/-- The batch rule: the warm-up fills both windows. -/
def batchAction (fast slow : ℕ) (closes : List K) (n : ℕ) : Action :=
  crossAction (max fast slow) fast slow closes n

/-- The strategy takes the actions of the batch rule. -/
def IsBatchCross (fast slow : ℕ) (bars : List (Bar K)) : Prop :=
  ∀ n < bars.length, (emitted (SmaCross.strategy fast slow) (SmaCross.make fast slow) bars)[n]?
    = some (batchAction fast slow (bars.map Bar.close) (n + 1))

/-- A later close does not matter. -/
lemma crossAction_take (warmup fast slow : ℕ) (closes : List K) {n m : ℕ} (h : n ≤ m) :
    crossAction warmup fast slow (closes.take m) n = crossAction warmup fast slow closes n := by
  have hpred : n - 1 ≤ m := by omega
  rw [crossAction, crossAction]
  simp only [List.take_take, min_eq_left h, min_eq_left hpred]

omit [LinearOrder K] in
lemma sma_value (period : ℕ) (closes : List K) :
    (Sma.state period closes).value = trailing period closes := rfl

namespace SmaCross

/-- The state of the strategy after the bars: the averages of the closes, and from the first full
slow window on how they compare. -/
def state (fast slow : ℕ) (bars : List (Bar K)) : SmaCross K where
  fast := .state fast (bars.map Bar.close)
  slow := .state slow (bars.map Bar.close)
  cross :=
    { prev := decide (slow ≤ bars.length ∧
        trailing slow (bars.map Bar.close) < trailing fast (bars.map Bar.close))
      hasPrev := decide (slow ≤ bars.length) }

/-- One bar: a cross with the warm-up of the slow window alone. -/
lemma onBar_state (fast slow : ℕ) (bars : List (Bar K)) (bar : Bar K) :
    onBar (state fast slow bars) bar =
      (state fast slow (bars ++ [bar]),
        crossAction slow fast slow ((bars ++ [bar]).map Bar.close) (bars.length + 1)) := by
  have hmap : (bars ++ [bar]).map Bar.close = bars.map Bar.close ++ [bar.close] := by simp
  have hlen : (bars ++ [bar]).length = bars.length + 1 := by simp
  have hlen' : (bars.map Bar.close ++ [bar.close]).length = bars.length + 1 := by simp
  have htake : (bars.map Bar.close ++ [bar.close]).take (bars.length + 1)
      = bars.map Bar.close ++ [bar.close] := List.take_of_length_le hlen'.le
  have hprev : (bars.map Bar.close ++ [bar.close]).take bars.length = bars.map Bar.close := by
    rw [List.take_append_of_le_length (by simp), List.take_of_length_le (by simp)]
  rw [onBar, state, state, crossAction, hmap, hlen]
  simp only [Sma.push_state, Sma.state_ready, sma_value, hlen', htake, hprev,
    Nat.add_sub_cancel, decide_eq_true_eq]
  by_cases hready : slow ≤ bars.length + 1
  · simp only [hready, if_true, Cross.signal, true_and, Order.lt_add_one_iff]
    congr 1
    -- there is a comparison to remember when the slow window was full before the bar
    by_cases hlast : slow ≤ bars.length
    · simp only [hlast, decide_true, Bool.true_and, true_and, Bool.and_eq_true, decide_eq_true_eq,
        Bool.not_eq_true', decide_eq_false_iff_not, not_lt]
    · simp [hlast]
  · have hnot : ¬ slow ≤ bars.length := by omega
    have hnot' : ¬ slow < bars.length + 1 := by omega
    simp [hready, hnot, hnot', Cross.signal]

lemma after_eq {slow : ℕ} (hslow : 1 ≤ slow) (fast : ℕ) (bars : List (Bar K)) :
    after (strategy fast slow).onBar (make fast slow) bars = state fast slow bars := by
  have hfresh : make fast slow = state fast slow ([] : List (Bar K)) := by
    have hnot : ¬ slow ≤ ([] : List (Bar K)).length := by
      rw [List.length_nil]
      omega
    rw [state, decide_eq_false hnot, decide_eq_false fun h => hnot h.1, List.map_nil,
      ← Sma.of_eq_state, ← Sma.of_eq_state]
    rfl
  exact after_eq_of_step _ (state fast slow) hfresh
    (fun bars bar => congrArg Prod.fst (onBar_state fast slow bars bar)) bars

/-- The actions of the strategy. -/
lemma emitted_eq {slow : ℕ} (hslow : 1 ≤ slow) (fast : ℕ) {bars : List (Bar K)} {n : ℕ}
    (hn : n < bars.length) :
    (emitted (strategy fast slow) (make fast slow) bars)[n]?
      = some (crossAction slow fast slow (bars.map Bar.close) (n + 1)) := by
  have hbar := List.getElem?_eq_getElem hn
  have htake : bars.take n ++ [bars[n]] = bars.take (n + 1) := by
    rw [List.take_add_one, hbar]
    rfl
  have hact := congrArg Prod.snd (onBar_state fast slow (bars.take n) bars[n])
  rw [htake, List.map_take, List.length_take_of_le hn.le] at hact
  rw [← crossAction_take slow fast slow _ (le_refl (n + 1))]
  rw [emitted_getElem? _ _ hbar, after_eq hslow]
  exact congrArg some hact

end SmaCross

/-- Two warm-ups of the rule agree on a bar unless the cross falls between them. -/
lemma crossAction_eq_iff {warmup warmup' : ℕ} (h : warmup ≤ warmup') (fast slow : ℕ)
    (closes : List K) (n : ℕ) :
    crossAction warmup fast slow closes (n + 1) = crossAction warmup' fast slow closes (n + 1) ↔
      (warmup ≤ n → n < warmup' →
        (trailing slow (closes.take n) < trailing fast (closes.take n) ↔
          trailing slow (closes.take (n + 1)) < trailing fast (closes.take (n + 1)))) := by
  rw [crossAction, crossAction]
  simp only [Nat.add_sub_cancel, Order.lt_add_one_iff]
  by_cases hlate : warmup ≤ n ∧ n < warmup'
  · have hnot : ¬ warmup' ≤ n := by omega
    simp only [hlate.1, hlate.2, hnot, true_and, false_and, if_false, forall_const, ← not_lt]
    by_cases hnow : trailing slow (closes.take (n + 1)) < trailing fast (closes.take (n + 1)) <;>
      by_cases hbefore : trailing slow (closes.take n) < trailing fast (closes.take n) <;>
      simp [hnow, hbefore]
  · have hsame : warmup ≤ n ↔ warmup' ≤ n := by omega
    simp only [hsame, true_iff]
    intro h1 h2
    omega

/-- The strategy keeps to the batch rule on the bars when the comparison does not change at a bar
that the slow window is full for and the fast one is still filling with. -/
lemma isBatchCross_iff {slow : ℕ} (hslow : 1 ≤ slow) (fast : ℕ) (bars : List (Bar K)) :
    IsBatchCross fast slow bars ↔ ∀ n, slow ≤ n → n < fast → n < bars.length →
      (trailing slow ((bars.map Bar.close).take n) < trailing fast ((bars.map Bar.close).take n) ↔
        trailing slow ((bars.map Bar.close).take (n + 1))
          < trailing fast ((bars.map Bar.close).take (n + 1))) := by
  have hbar (n : ℕ) (hn : n < bars.length) :
      (emitted (SmaCross.strategy fast slow) (SmaCross.make fast slow) bars)[n]?
          = some (batchAction fast slow (bars.map Bar.close) (n + 1)) ↔
        (slow ≤ n → n < max fast slow →
          (trailing slow ((bars.map Bar.close).take n)
              < trailing fast ((bars.map Bar.close).take n) ↔
            trailing slow ((bars.map Bar.close).take (n + 1))
              < trailing fast ((bars.map Bar.close).take (n + 1)))) := by
    rw [SmaCross.emitted_eq hslow fast hn, Option.some_inj, batchAction]
    exact crossAction_eq_iff (le_max_right fast slow) fast slow _ n
  constructor
  · intro h n hready hfill hn
    exact (hbar n hn).mp (h n hn) hready (hfill.trans_le (le_max_left fast slow))
  · intro h n hn
    rw [hbar n hn]
    intro hready hfill
    exact h n hready (by omega) hn

/-- One close above zero, then a slow window of zeros: the bars on which a slow window that is
shorter than the fast one signals too early. -/
def earlyBars (slow : ℕ) : List (Bar K) :=
  (1 :: List.replicate slow 0).map fun close => ⟨0, close, close, close, close, 0⟩

omit [LinearOrder K] in
lemma closes_earlyBars (slow : ℕ) :
    (earlyBars (K := K) slow).map Bar.close = 1 :: List.replicate slow 0 := by
  simp [earlyBars]

section

variable [IsStrictOrderedRing K]

/-- Both windows hold the same closes, then only the fast one holds the first of them. -/
lemma not_isBatchCross_earlyBars {fast slow : ℕ} (hslow : 1 ≤ slow) (h : slow < fast) :
    ¬ IsBatchCross fast slow (earlyBars (K := K) slow) := by
  have hlen : (earlyBars (K := K) slow).length = slow + 1 := by simp [earlyBars]
  intro hbatch
  have hswitch := (isBatchCross_iff hslow fast _).mp hbatch slow le_rfl h (by omega)
  rw [closes_earlyBars] at hswitch
  set closes : List K := 1 :: List.replicate slow 0 with hcloses
  have hfull : closes.length = slow + 1 := by simp [hcloses]
  have hbefore : trailing slow (closes.take slow) = trailing fast (closes.take slow) := by
    rw [trailing, trailing, rtake_of_length_le, rtake_of_length_le]
    · exact (List.length_take_le ..).trans h.le
    · exact List.length_take_le ..
  have hfast : 0 < trailing fast (closes.take (slow + 1)) := by
    rw [List.take_of_length_le hfull.le, trailing, rtake_of_length_le (by omega), mean, hfull]
    have hsum : closes.sum = 1 := by simp [hcloses]
    rw [hsum]
    positivity
  have hslow' : trailing slow (closes.take (slow + 1)) = 0 := by
    rw [List.take_of_length_le hfull.le, trailing, List.rtake, hfull, Nat.add_sub_cancel_left,
      hcloses, List.drop_succ_cons, List.drop_zero, mean, List.sum_replicate, smul_zero, zero_div]
  rw [hbefore, hslow'] at hswitch
  exact absurd (hswitch.mpr hfast) (lt_irrefl _)

/-- **The golden cross on full windows.** With a fast window that is no longer than the slow one,
and only then, the strategy is the batch rule on all bars; on given bars it is when no comparison
changes while the fast window fills. -/
theorem smaCross_batch_iff {slow : ℕ} (hslow : 1 ≤ slow) (fast : ℕ) :
    ((∀ bars : List (Bar K), IsBatchCross fast slow bars) ↔ fast ≤ slow) ∧
    ∀ bars : List (Bar K), IsBatchCross fast slow bars ↔
      ∀ n, slow ≤ n → n < fast → n < bars.length →
        (trailing slow ((bars.map Bar.close).take n)
            < trailing fast ((bars.map Bar.close).take n) ↔
          trailing slow ((bars.map Bar.close).take (n + 1))
            < trailing fast ((bars.map Bar.close).take (n + 1))) := by
  refine ⟨⟨?_, ?_⟩, isBatchCross_iff hslow fast⟩
  · intro h
    by_contra hlt
    exact not_isBatchCross_earlyBars hslow (not_le.mp hlt) (h _)
  · intro hle bars
    rw [isBatchCross_iff hslow]
    intro n hready hfill
    omega

end

/-- The periods of the default constructor. -/
theorem smaCross_batch_default : 1 ≤ 50 ∧ ∀ bars : List (Bar ℚ), IsBatchCross 20 50 bars :=
  ⟨by decide, (smaCross_batch_iff (by decide) 20).1.mpr (by decide)⟩

/-- Fast 2, slow 1, closes 1 and 0: a buy at bar 2, where the batch rule still holds. -/
theorem smaCross_early_buy :
    ¬ IsBatchCross 2 1 [(⟨0, 1, 1, 1, 1, 0⟩ : Bar ℚ), ⟨1, 0, 0, 0, 0, 0⟩] := by
  intro h
  have hbuy : (emitted (SmaCross.strategy 2 1) (SmaCross.make 2 1)
      [(⟨0, 1, 1, 1, 1, 0⟩ : Bar ℚ), ⟨1, 0, 0, 0, 0, 0⟩])[1]? = some .buy := by decide +kernel
  have hhold : some (batchAction 2 1 [(1 : ℚ), 0] 2) = some .hold := by decide +kernel
  have hbatch := (hbuy.symm.trans (h 1 (by decide))).trans hhold
  exact absurd hbatch (by decide)

end

end Algo
end TInvest
