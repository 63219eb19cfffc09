import TInvest.Algo.EquityCurve

/-!
# What a commission costs

The strategies do not see the commission, so two backtests that differ in it trade on the same bars
at the same prices. Between them only the equity differs, by a factor for each fill.

* `Dearer` — the run with the higher commission, bar by bar: it has the same position and the same
  trades with lower returns, less equity, and it is further below its peak;
* `commission_costs` — so a higher commission improves no figure of the report.
-/

namespace TInvest
namespace Algo

variable {K : Type*} {σ : Type*} [Field K]

/-- The factor of the fee that the action is charged. -/
def feeFactor (fee : K) (a : Action) (long : Bool) : K :=
  if a = .buy ∧ long = false ∨ a = .sell ∧ long = true then 1 - fee else 1

/-- What a fill does to the equity. -/
lemma fill_equity (fee : K) (a : Action) (bar : Bar K) (run : Run K) :
    (fill fee a bar run).equity = run.equity * feeFactor fee a run.longPos := by
  rcases fill_cases fee a bar run with ⟨ha, hlong, hfill⟩ | ⟨ha, hlong, hfill⟩ | ⟨ha, hfill⟩
  · rw [hfill, feeFactor, if_pos (Or.inl ⟨ha, hlong⟩)]
  · rw [hfill, feeFactor, if_pos (Or.inr ⟨ha, hlong⟩)]
  · have hnone : ¬ (a = .buy ∧ run.longPos = false ∨ a = .sell ∧ run.longPos = true) := by
      rintro (⟨hbuy, hflat⟩ | ⟨hsell, hlong⟩)
      · rcases ha with ha | ha
        · exact absurd (hbuy.symm.trans ha) (by decide)
        · rw [hbuy] at ha
          exact absurd (hflat.symm.trans ha) (by decide)
      · rcases ha with ha | ha
        · exact absurd (hsell.symm.trans ha) (by decide)
        · rw [hsell] at ha
          exact absurd (hlong.symm.trans ha) (by decide)
    rw [hfill, feeFactor, if_neg hnone, mul_one]

variable [LinearOrder K]

/-- The same trade with a lower return. -/
structure TradeRecord.Dearer (t t' : TradeRecord K) : Prop where
  entryTime : t'.entryTime = t.entryTime
  exitTime : t'.exitTime = t.exitTime
  entryPrice : t'.entryPrice = t.entryPrice
  exitPrice : t'.exitPrice = t.exitPrice
  returnPct : t'.returnPct ≤ t.returnPct

/-- Two runs with the same position and the same trades, the ones of the second run dearer. -/
structure SameTrades (run run' : Run K) : Prop where
  longPos : run'.longPos = run.longPos
  entryPrice : run'.entryPrice = run.entryPrice
  entryTime : run'.entryTime = run.entryTime
  prevClose : run'.prevClose = run.prevClose
  entry : run.longPos = true → 0 < run.entryPrice
  tradeLog : List.Forall₂ TradeRecord.Dearer run.tradeLog run'.tradeLog

/-- The factor of mark to market. -/
def growth (bar : Bar K) (long : Bool) (prevClose : K) : K :=
  if long = true ∧ 0 < prevClose then bar.close / prevClose else 1

lemma markToMarket_equity (bar : Bar K) (run : Run K) :
    (markToMarket bar run).equity = run.equity * growth bar run.longPos run.prevClose := by
  rw [markToMarket, growth]
  split
  · rfl
  · rw [mul_one]

/-- A bar multiplies the equity by two factors. -/
lemma barStep_equity_eq (fee : K) (a : Action) (bar : Bar K) (run : Run K) :
    (barStep fee a bar run).equity =
      run.equity * growth bar run.longPos run.prevClose * feeFactor fee a run.longPos := by
  obtain ⟨equity, hmark⟩ := markToMarket_cases bar run
  have hlong : (markToMarket bar run).longPos = run.longPos := by rw [hmark]
  have hfill := fill_equity fee a bar (markToMarket bar run)
  rw [markToMarket_equity, hlong] at hfill
  exact hfill

variable [IsStrictOrderedRing K]

lemma growth_pos {bar : Bar K} (hclose : 0 < bar.close) (long : Bool) (prevClose : K) :
    0 < growth bar long prevClose := by
  rw [growth]
  split
  · next h => exact div_pos hclose h.2
  · exact one_pos

lemma feeFactor_le {fee fee' : K} (hle : fee ≤ fee') (hlt : fee' < 1) (a : Action) (long : Bool) :
    0 < feeFactor fee' a long ∧ feeFactor fee' a long ≤ feeFactor fee a long := by
  rw [feeFactor, feeFactor]
  split
  · exact ⟨by linarith, by linarith⟩
  · exact ⟨one_pos, le_rfl⟩

/-- A trade returns less when its two fills cost more. -/
lemma closingTrade_dearer {fee fee' : K} (hle : fee ≤ fee') (hlt : fee' < 1) {bar : Bar K}
    (hclose : 0 < bar.close) {run run' : Run K} (hprice : run'.entryPrice = run.entryPrice)
    (htime : run'.entryTime = run.entryTime) (hentry : 0 < run.entryPrice) :
    (closingTrade fee bar run).Dearer (closingTrade fee' bar run') := by
  refine ⟨htime, rfl, hprice, rfl, ?_⟩
  have hratio : 0 < bar.close / run.entryPrice := div_pos hclose hentry
  have hsquare : (1 - fee') * (1 - fee') ≤ (1 - fee) * (1 - fee) :=
    mul_self_le_mul_self (by linarith) (by linarith)
  have hmul := mul_le_mul_of_nonneg_left hsquare hratio.le
  simp only [closingTrade, hprice]
  linarith

lemma SameTrades.closingTrade {fee fee' : K} (hle : fee ≤ fee') (hlt : fee' < 1)
    {run run' : Run K} (h : SameTrades run run') (hlong : run.longPos = true) {bar : Bar K}
    (hclose : 0 < bar.close) :
    List.Forall₂ TradeRecord.Dearer (run.tradeLog ++ [closingTrade fee bar run])
      (run'.tradeLog ++ [closingTrade fee' bar run']) :=
  List.rel_append h.tradeLog (.cons (closingTrade_dearer hle hlt hclose h.entryPrice h.entryTime
    (h.entry hlong)) .nil)

/-- Both runs open or close a position together. -/
lemma SameTrades.fill {fee fee' : K} (hle : fee ≤ fee') (hlt : fee' < 1) {run run' : Run K}
    (h : SameTrades run run') (a : Action) {bar : Bar K} (hclose : 0 < bar.close) :
    SameTrades (fill fee a bar run) (fill fee' a bar run') := by
  rw [Algo.fill, Algo.fill, h.longPos]
  by_cases hbuy : a = .buy ∧ run.longPos = false
  · rw [if_pos hbuy, if_pos hbuy]
    exact ⟨rfl, rfl, rfl, h.prevClose, fun _ => hclose, h.tradeLog⟩
  · rw [if_neg hbuy, if_neg hbuy]
    by_cases hsell : a = .sell ∧ run.longPos = true
    · rw [if_pos hsell, if_pos hsell]
      exact ⟨rfl, h.entryPrice, h.entryTime, h.prevClose, fun hlong => absurd hlong (by simp),
        h.closingTrade hle hlt hsell.2 hclose⟩
    · rw [if_neg hsell, if_neg hsell]
      exact h

lemma SameTrades.barStep {fee fee' : K} (hle : fee ≤ fee') (hlt : fee' < 1) {run run' : Run K}
    (h : SameTrades run run') (a : Action) {bar : Bar K} (hclose : 0 < bar.close) :
    SameTrades (barStep fee a bar run) (barStep fee' a bar run') := by
  obtain ⟨equity, hmark⟩ := markToMarket_cases bar run
  obtain ⟨equity', hmark'⟩ := markToMarket_cases bar run'
  have hmarked : SameTrades (markToMarket bar run) (markToMarket bar run') := by
    rw [hmark, hmark']
    exact ⟨h.longPos, h.entryPrice, h.entryTime, h.prevClose, h.entry, h.tradeLog⟩
  have hfill := hmarked.fill hle hlt a hclose
  exact ⟨hfill.longPos, hfill.entryPrice, hfill.entryTime, rfl, hfill.entry, hfill.tradeLog⟩

/-- The runs with the lower and with the higher commission. -/
structure Dearer (run run' : Run K) : Prop extends SameTrades run run' where
  positive : 0 < run'.equity
  equity : run'.equity ≤ run.equity
  peak : 0 < run.peak ∧ 0 < run'.peak
  below : run.peak * run'.equity ≤ run'.peak * run.equity
  drawdown : run.maxDrawdownPct ≤ run'.maxDrawdownPct

/-- Factors that are smaller on one side take it further below its peak. -/
lemma below_peak {p p' e e' x x' : K} (hx : 0 < x') (hle : x' ≤ x) (he : 0 < e')
    (hee : e' ≤ e) (hbelow : p * e' ≤ p' * e) (hp : 0 < p') :
    max p (e * x) * (e' * x') ≤ max p' (e' * x') * (e * x) := by
  have hnew : 0 < e' * x' := mul_pos he hx
  have hex : 0 < e * x := mul_pos (he.trans_le hee) (hx.trans_le hle)
  rcases max_choice p (e * x) with hmax | hmax <;> rw [hmax]
  · -- the old peak stands
    have hfirst : p * e' * x' ≤ p' * e * x' := mul_le_mul_of_nonneg_right hbelow hx.le
    have hsecond : p' * e * x' ≤ p' * e * x :=
      mul_le_mul_of_nonneg_left hle (mul_pos hp (he.trans_le hee)).le
    have hthird : p' * (e * x) ≤ max p' (e' * x') * (e * x) :=
      mul_le_mul_of_nonneg_right (le_max_left _ _) hex.le
    calc p * (e' * x') = p * e' * x' := (mul_assoc ..).symm
      _ ≤ p' * e * x := hfirst.trans hsecond
      _ = p' * (e * x) := mul_assoc ..
      _ ≤ max p' (e' * x') * (e * x) := hthird
  · calc e * x * (e' * x') = e' * x' * (e * x) := mul_comm ..
      _ ≤ max p' (e' * x') * (e * x) :=
        mul_le_mul_of_nonneg_right (le_max_right _ _) hex.le

/-- Further below the peak is a larger fall from it. -/
lemma fall_le_of_below {p p' e e' : K} (hp : 0 < p) (hp' : 0 < p') (h : p * e' ≤ p' * e) :
    (p - e) / p * 100 ≤ (p' - e') / p' * 100 := by
  have hdiv : e' / p' ≤ e / p := by
    rw [div_le_div_iff₀ hp' hp]
    linarith
  have hone : (p - e) / p = 1 - e / p := by field_simp
  have hone' : (p' - e') / p' = 1 - e' / p' := by field_simp
  rw [hone, hone']
  linarith

/-- One bar. -/
lemma Dearer.barStep {fee fee' : K} (hle : fee ≤ fee') (hlt : fee' < 1) {run run' : Run K}
    (h : Dearer run run') (a : Action) {bar : Bar K} (hclose : 0 < bar.close) :
    Dearer (barStep fee a bar run) (barStep fee' a bar run') := by
  have hgrowth := growth_pos hclose run.longPos run.prevClose
  obtain ⟨hpos, hfactor⟩ := feeFactor_le hle hlt a run.longPos
  -- the factors of the bar
  set x := growth bar run.longPos run.prevClose * feeFactor fee a run.longPos
  set x' := growth bar run.longPos run.prevClose * feeFactor fee' a run.longPos
  have hxpos : 0 < x' := mul_pos hgrowth hpos
  have hxle : x' ≤ x := mul_le_mul_of_nonneg_left hfactor hgrowth.le
  have hequity : (Algo.barStep fee a bar run).equity = run.equity * x := by
    rw [barStep_equity_eq, mul_assoc]
  have hequity' : (Algo.barStep fee' a bar run').equity = run'.equity * x' := by
    rw [barStep_equity_eq, h.longPos, h.prevClose, mul_assoc]
  obtain ⟨hprev, hpeak, hdraw, -⟩ := barStep_metrics fee a bar run
  obtain ⟨hprev', hpeak', hdraw', -⟩ := barStep_metrics fee' a bar run'
  have hbelow : (Algo.barStep fee a bar run).peak * (Algo.barStep fee' a bar run').equity
      ≤ (Algo.barStep fee' a bar run').peak * (Algo.barStep fee a bar run).equity := by
    rw [hpeak, hpeak', hequity, hequity']
    exact below_peak hxpos hxle h.positive h.equity h.below h.peak.2
  have hpeaks : 0 < (Algo.barStep fee a bar run).peak ∧
      0 < (Algo.barStep fee' a bar run').peak := by
    rw [hpeak, hpeak']
    exact ⟨lt_max_of_lt_left h.peak.1, lt_max_of_lt_left h.peak.2⟩
  have hdrawdown : (Algo.barStep fee a bar run).maxDrawdownPct
      ≤ (Algo.barStep fee' a bar run').maxDrawdownPct := by
    rw [hdraw, hdraw']
    exact max_le_max h.drawdown (fall_le_of_below hpeaks.1 hpeaks.2 hbelow)
  have hpositive : 0 < (Algo.barStep fee' a bar run').equity := by
    rw [hequity']
    exact mul_pos h.positive hxpos
  have hless : (Algo.barStep fee' a bar run').equity ≤ (Algo.barStep fee a bar run).equity := by
    rw [hequity, hequity']
    exact mul_le_mul h.equity hxle hxpos.le (h.positive.le.trans h.equity)
  exact ⟨h.toSameTrades.barStep hle hlt a hclose, hpositive, hless, hpeaks, hbelow, hdrawdown⟩

/-- The first bar finds both runs flat with equity one. -/
lemma dearer_opening (bars : List (Bar K)) : Dearer (opening bars) (opening bars) :=
  ⟨⟨rfl, rfl, rfl, rfl, fun hlong => absurd hlong (by simp [opening]), .nil⟩, one_pos, le_rfl,
    ⟨one_pos, one_pos⟩, le_rfl, le_rfl⟩

/-- Two runs of a strategy on the same bars. -/
lemma dearer_of_run (strategy : Strategy σ K) (state : σ) {fee fee' : K} (hle : fee ≤ fee')
    (hlt : fee' < 1) {bars : List (Bar K)} (hclose : ∀ bar ∈ bars, 0 < bar.close) :
    ∀ i ≤ bars.length,
      Dearer (runAt strategy fee state bars i) (runAt strategy fee' state bars i) := by
  refine runAt_induction strategy fee state bars (dearer_opening bars) ?_
  intro i a bar hbar ha hstep hrun
  rw [hstep, runAt_succ strategy fee' state bars hbar ha]
  exact hrun.barStep hle hlt a (hclose bar (List.mem_of_getElem? hbar))

/-- The close after the last bar costs one more fee. -/
lemma Dearer.closeAtEnd {fee fee' : K} (hle : fee ≤ fee') (hlt : fee' < 1) {run run' : Run K}
    (h : Dearer run run') {last : Bar K} (hclose : 0 < last.close) :
    (closeAtEnd fee' last run').equity ≤ (closeAtEnd fee last run).equity ∧
      List.Forall₂ TradeRecord.Dearer (closeAtEnd fee last run).tradeLog
        (closeAtEnd fee' last run').tradeLog := by
  rw [Algo.closeAtEnd, Algo.closeAtEnd, h.longPos]
  by_cases hlong : run.longPos = true
  · rw [if_pos hlong, if_pos hlong]
    refine ⟨?_, h.closingTrade hle hlt hlong hclose⟩
    exact mul_le_mul h.equity (by linarith) (by linarith) (h.positive.le.trans h.equity)
  · rw [if_neg hlong, if_neg hlong]
    exact ⟨h.equity, h.tradeLog⟩

/-- Lower returns win less often. -/
lemma winRate_le {log log' : List (TradeRecord K)} (h : List.Forall₂ TradeRecord.Dearer log log') :
    winRate log' ≤ winRate log := by
  have hcount : (log'.countP fun t => 0 < t.returnPct) ≤ log.countP fun t => 0 < t.returnPct := by
    induction h with
    | nil => exact le_rfl
    | cons ht _ ih =>
      rw [List.countP_cons, List.countP_cons]
      have hone := ht.returnPct
      split <;> split <;> simp only [decide_eq_true_eq] at * <;> first | omega | linarith
  rw [winRate, winRate, h.length_eq]
  split
  · exact le_rfl
  · have hcast : ((log'.countP fun t => 0 < t.returnPct : ℕ) : K)
        ≤ (log.countP fun t => 0 < t.returnPct : ℕ) := by exact_mod_cast hcount
    refine div_le_div_of_nonneg_right ?_ (Nat.cast_nonneg _)
    linarith

/-- **A commission costs.** For any strategy and any bars with positive closes, a backtest with a
higher commission reports the same trades at the same prices, each with a return that is not
higher, a total return and a win rate that are not higher, and a drawdown that is not lower. -/
theorem commission_costs (sqrt : K → K) (strategy : Strategy σ K) (state : σ)
    {bars : List (Bar K)} (hclose : ∀ bar ∈ bars, 0 < bar.close) {commissionPct commissionPct' : K}
    (hle : commissionPct ≤ commissionPct') (hlt : commissionPct' < 100) (annualization : K) :
    let cheap := runBacktest sqrt strategy state bars commissionPct annualization
    let dear := runBacktest sqrt strategy state bars commissionPct' annualization
    dear.trades = cheap.trades ∧
      List.Forall₂ TradeRecord.Dearer cheap.tradeLog dear.tradeLog ∧
      dear.totalReturnPct ≤ cheap.totalReturnPct ∧ dear.winRatePct ≤ cheap.winRatePct ∧
      cheap.maxDrawdownPct ≤ dear.maxDrawdownPct := by
  intro cheap dear
  by_cases hlen : bars.length < 2
  · have hcheap : cheap = { strategy := strategy.name, bars := bars.length } := dif_pos hlen
    have hdear : dear = { strategy := strategy.name, bars := bars.length } := dif_pos hlen
    rw [hcheap, hdear]
    exact ⟨rfl, .nil, le_rfl, le_rfl, le_rfl⟩
  · have hne : bars ≠ [] := List.ne_nil_of_length_pos (by omega)
    have hhead := List.head?_eq_some_head hne
    have hlast := List.getLast?_eq_some_getLast hne
    have hfee : commissionPct / 100 ≤ commissionPct' / 100 := by linarith
    have hfee' : commissionPct' / 100 < 1 := by linarith
    have hrun := dearer_of_run strategy state hfee hfee' hclose bars.length le_rfl
    obtain ⟨hequity, hlog⟩ := hrun.closeAtEnd hfee hfee' (hclose _ (List.getLast_mem hne))
    have hcheap : cheap = report .. := runBacktest_eq strategy state bars sqrt commissionPct
      annualization (by omega) hhead hlast
    have hdear : dear = report .. := runBacktest_eq strategy state bars sqrt commissionPct'
      annualization (by omega) hhead hlast
    have hdrawdown : cheap.maxDrawdownPct ≤ dear.maxDrawdownPct :=
      calc cheap.maxDrawdownPct
          = (runAt strategy (commissionPct / 100) state bars bars.length).maxDrawdownPct :=
            runBacktest_maxDrawdownPct strategy state sqrt commissionPct annualization (by omega)
        _ ≤ (runAt strategy (commissionPct' / 100) state bars bars.length).maxDrawdownPct :=
            hrun.drawdown
        _ = dear.maxDrawdownPct := (runBacktest_maxDrawdownPct strategy state sqrt commissionPct'
            annualization (by omega)).symm
    refine ⟨?_, ?_, ?_, ?_, hdrawdown⟩
    · rw [hcheap, hdear]
      exact hlog.length_eq.symm
    · rw [hcheap, hdear]
      exact hlog
    · rw [hcheap, hdear]
      simp only [report]
      linarith
    · rw [hcheap, hdear]
      exact winRate_le hlog

/-- The default commission, and one that is twenty times higher. -/
theorem commission_costs_default :
    (runBacktest Real.sqrt scripted [.buy, .sell] (makeBars [100, 101, (100 : ℝ)]) 1
        252).totalReturnPct
      ≤ (runBacktest Real.sqrt scripted [.buy, .sell] (makeBars [100, 101, (100 : ℝ)]) (5 / 100)
        252).totalReturnPct := by
  have hclose : ∀ bar ∈ makeBars [100, 101, (100 : ℝ)], 0 < bar.close := by
    simp [makeBars]
  exact (commission_costs Real.sqrt scripted [.buy, .sell] hclose (by norm_num) (by norm_num)
    252).2.2.1

end Algo
end TInvest
