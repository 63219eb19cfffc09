import TInvest.Algo.Runs
import TInvest.Algo.BacktestTheorems

/-!
# The trade log

* `Greedy` — the matching of buys and sells that a long-only account makes: a trade opens at the
  first buy after the exit of the one before and closes at the first sell after it, or at the last
  bar if there is none;
* `Tracks` — what the loop knows of it after some of the bars;
* `tradeLog_greedy` — the log of the report is that matching, so its trades are in the order of
  time and do not overlap; the actions it leaves out have no effect on the report.
-/

namespace TInvest
namespace Algo

variable {K : Type*} {σ : Type*}

/-! ## The matching -/

/-- `j` is the first position from `i` on with the action `a`. -/
def IsFirst (actions : List Action) (a : Action) (i j : ℕ) : Prop :=
  i ≤ j ∧ actions[j]? = some a ∧ ∀ k, i ≤ k → k < j → actions[k]? ≠ some a

lemma IsFirst.unique {actions : List Action} {a : Action} {i j j' : ℕ}
    (h : IsFirst actions a i j) (h' : IsFirst actions a i j') : j = j' := by
  rcases lt_trichotomy j j' with hlt | heq | hlt
  · exact absurd h.2.1 (h'.2.2 j h.1 hlt)
  · exact heq
  · exact absurd h'.2.1 (h.2.2 j' h'.1 hlt)

/-- The trades of the actions on `n` bars from position `i` on, by the positions of their entries
and exits. -/
inductive Greedy (actions : List Action) (n : ℕ) : ℕ → List (ℕ × ℕ) → Prop
  | done {i : ℕ} (h : ∀ k, i ≤ k → actions[k]? ≠ some .buy) : Greedy actions n i []
  | last {i b : ℕ} (hb : IsFirst actions .buy i b) (h : ∀ k, b < k → actions[k]? ≠ some .sell) :
    Greedy actions n i [(b, n - 1)]
  | trade {i b s : ℕ} {ps : List (ℕ × ℕ)} (hb : IsFirst actions .buy i b)
    (hs : IsFirst actions .sell (b + 1) s) (h : Greedy actions n (s + 1) ps) :
    Greedy actions n i ((b, s) :: ps)

/-- There is one such matching. -/
lemma Greedy.unique {actions : List Action} {n i : ℕ} {ps ps' : List (ℕ × ℕ)}
    (h : Greedy actions n i ps) (h' : Greedy actions n i ps') : ps = ps' := by
  induction h generalizing ps' with
  | done hnone =>
    cases h' with
    | done => rfl
    | last hb => exact absurd hb.2.1 (hnone _ hb.1)
    | trade hb => exact absurd hb.2.1 (hnone _ hb.1)
  | last hb hopen =>
    cases h' with
    | done hnone => exact absurd hb.2.1 (hnone _ hb.1)
    | last hb' => rw [hb.unique hb']
    | trade hb' hs' =>
      rw [← hb.unique hb'] at hs'
      exact absurd hs'.2.1 (hopen _ hs'.1)
  | trade hb hs _ ih =>
    cases h' with
    | done hnone => exact absurd hb.2.1 (hnone _ hb.1)
    | last hb' hopen =>
      rw [← hb.unique hb'] at hopen
      exact absurd hs.2.1 (hopen _ hs.1)
    | trade hb' hs' h' =>
      rw [← hb.unique hb'] at hs' ⊢
      rw [← hs.unique hs'] at h' ⊢
      rw [ih h']

/-- Trades follow one another; only one that is opened on the last bar ends where it starts. -/
lemma Greedy.ordered {actions : List Action} {i : ℕ} {ps : List (ℕ × ℕ)}
    (h : Greedy actions actions.length i ps) :
    ps.Pairwise (fun p q => p.2 < q.1) ∧
      ∀ p ∈ ps, i ≤ p.1 ∧ p.2 < actions.length ∧
        (p.1 < p.2 ∨ p.1 = p.2 ∧ p.1 = actions.length - 1) := by
  induction h with
  | done => exact ⟨List.Pairwise.nil, by simp⟩
  | last hb hopen =>
    have hlt := (List.getElem?_eq_some_iff.mp hb.2.1).1
    have hle := hb.1
    refine ⟨List.pairwise_singleton _ _, ?_⟩
    intro p hp
    rw [List.mem_singleton.mp hp]
    simp only
    omega
  | trade hb hs _ ih =>
    have hlt := (List.getElem?_eq_some_iff.mp hs.2.1).1
    have hle := hb.1
    have hbs := hs.1
    refine ⟨List.pairwise_cons.mpr ⟨fun q hq => ?_, ih.1⟩, ?_⟩
    · have hafter := (ih.2 q hq).1
      simp only
      omega
    · intro p hp
      rcases List.mem_cons.mp hp with heq | hmem
      · rw [heq]
        simp only
        omega
      · obtain ⟨hafter, hrest⟩ := ih.2 p hmem
        exact ⟨by omega, hrest⟩

/-! ## What the loop knows -/

/-- The trades that were closed, in the order in which the loop closes them, and the position from
which the next one is looked for. -/
inductive Closed (actions : List Action) : ℕ → List (ℕ × ℕ) → Prop
  | nil : Closed actions 0 []
  | concat {i b s : ℕ} {ps : List (ℕ × ℕ)} (h : Closed actions i ps)
    (hb : IsFirst actions .buy i b) (hs : IsFirst actions .sell (b + 1) s) :
    Closed actions (s + 1) (ps ++ [(b, s)])

/-- The closed trades and the rest make up the matching. -/
lemma Closed.greedy {actions : List Action} {n i : ℕ} {closed rest : List (ℕ × ℕ)}
    (h : Closed actions i closed) (hrest : Greedy actions n i rest) :
    Greedy actions n 0 (closed ++ rest) := by
  induction h generalizing rest with
  | nil => exact hrest
  | concat _ hb hs ih =>
    rw [List.append_assoc]
    exact ih (.trade hb hs hrest)

/-- The record of a trade between two bars. -/
def tradeBetween [Field K] (fee : K) (entry exit : Bar K) : TradeRecord K where
  entryTime := entry.time
  exitTime := exit.time
  entryPrice := entry.close
  exitPrice := exit.close
  returnPct := (exit.close / entry.close * (1 - fee) * (1 - fee) - 1) * 100

/-- The record is the one of the trade between the bars at the two positions. -/
def TradeOn [Field K] (fee : K) (bars : List (Bar K)) (t : TradeRecord K) (p : ℕ × ℕ) : Prop :=
  ∃ entry exit, bars[p.1]? = some entry ∧ bars[p.2]? = some exit ∧ t = tradeBetween fee entry exit

variable [Field K]

/-- The state of the loop after `i` bars: the closed trades are in the log, and a position is open
since the first buy after them if there was one. -/
def Tracks (fee : K) (actions : List Action) (bars : List (Bar K)) (i : ℕ) (run : Run K) : Prop :=
  ∃ start closed, Closed actions start closed ∧ start ≤ i ∧
    List.Forall₂ (TradeOn fee bars) run.tradeLog closed ∧
    ((run.longPos = false ∧ ∀ k, start ≤ k → k < i → actions[k]? ≠ some .buy) ∨
      (run.longPos = true ∧ ∃ b entry, IsFirst actions .buy start b ∧ b < i ∧
        bars[b]? = some entry ∧ run.entryPrice = entry.close ∧ run.entryTime = entry.time ∧
        ∀ k, b < k → k < i → actions[k]? ≠ some .sell))

/-- The record of a position that is closed at a bar. -/
lemma closingTrade_eq {fee : K} {entry exit : Bar K} {run : Run K}
    (hprice : run.entryPrice = entry.close) (htime : run.entryTime = entry.time) :
    closingTrade fee exit run = tradeBetween fee entry exit := by
  rw [closingTrade, tradeBetween, hprice, htime]

variable [LinearOrder K]

omit [Field K] [LinearOrder K] in
/-- An action that has not been taken, and is not the next one. -/
lemma not_taken_succ {actions : List Action} {a x : Action} {lo i : ℕ}
    (h : ∀ k, lo ≤ k → k < i → actions[k]? ≠ some x) (ha : actions[i]? = some a) (hne : a ≠ x) :
    ∀ k, lo ≤ k → k < i + 1 → actions[k]? ≠ some x := by
  intro k hk hlt
  rcases Nat.lt_succ_iff_lt_or_eq.mp hlt with hlt | heq
  · exact h k hk hlt
  · rw [heq, ha]
    simpa using hne

section

variable {fee : K} {actions : List Action} {bars : List (Bar K)} {i : ℕ} {a : Action} {bar : Bar K}
  {run run' : Run K}

omit [LinearOrder K] in
/-- The first buy since the last exit opens a position. -/
lemma Tracks.opened (h : Tracks fee actions bars i run) (hbar : bars[i]? = some bar)
    (ha : actions[i]? = some .buy) (hflat : run.longPos = false) (hlong : run'.longPos = true)
    (hprice : run'.entryPrice = bar.close) (htime : run'.entryTime = bar.time)
    (hsame : run'.tradeLog = run.tradeLog) : Tracks fee actions bars (i + 1) run' := by
  obtain ⟨start, closed, hclosed, hle, hlog, hpos⟩ := h
  rcases hpos with ⟨-, hnone⟩ | ⟨hlong', -⟩
  · have hfirst : IsFirst actions .buy start i := ⟨hle, ha, hnone⟩
    rw [← hsame] at hlog
    exact ⟨start, closed, hclosed, by omega, hlog, Or.inr ⟨hlong, i, bar, hfirst, by omega, hbar,
      hprice, htime, fun k hk hk' => by omega⟩⟩
  · rw [hflat] at hlong'
    exact absurd hlong' (by simp)

omit [LinearOrder K] in
/-- The first sell since the entry closes it. -/
lemma Tracks.closed (h : Tracks fee actions bars i run) (hbar : bars[i]? = some bar)
    (ha : actions[i]? = some .sell) (hlong : run.longPos = true) (hflat : run'.longPos = false)
    (hadd : run'.tradeLog = run.tradeLog ++ [closingTrade fee bar run]) :
    Tracks fee actions bars (i + 1) run' := by
  obtain ⟨start, closed, hclosed, hle, hlog, hpos⟩ := h
  rcases hpos with ⟨hflat', -⟩ | ⟨-, b, entry, hb, hbi, hentry, hprice, htime, hopen⟩
  · rw [hlong] at hflat'
    exact absurd hflat' (by simp)
  · have hs : IsFirst actions .sell (b + 1) i := ⟨hbi, ha, hopen⟩
    refine ⟨i + 1, closed ++ [(b, i)], hclosed.concat hb hs, le_rfl, ?_,
      Or.inl ⟨hflat, fun k hk hk' => by omega⟩⟩
    rw [hadd, closingTrade_eq hprice htime]
    exact List.rel_append hlog (List.Forall₂.cons ⟨entry, bar, hentry, hbar, rfl⟩ .nil)

omit [LinearOrder K] in
/-- A hold or an ignored action leaves the position and the log. -/
lemma Tracks.kept (h : Tracks fee actions bars i run) (ha : actions[i]? = some a)
    (hkeep : a = .hold ∨ Ignored run.longPos a) (hlong : run'.longPos = run.longPos)
    (hprice : run'.entryPrice = run.entryPrice) (htime : run'.entryTime = run.entryTime)
    (hsame : run'.tradeLog = run.tradeLog) : Tracks fee actions bars (i + 1) run' := by
  obtain ⟨start, closed, hclosed, hle, hlog, hpos⟩ := h
  rw [← hsame] at hlog
  refine ⟨start, closed, hclosed, by omega, hlog, ?_⟩
  rcases hpos with ⟨hflat, hnone⟩ | ⟨hlong', b, entry, hb, hbi, hentry, hprice', htime', hopen⟩
  · have hne : a ≠ .buy := by
      rintro rfl
      rw [hflat] at hkeep
      exact absurd hkeep (by simp [Ignored])
    exact Or.inl ⟨hlong.trans hflat, not_taken_succ hnone ha hne⟩
  · have hne : a ≠ .sell := by
      rintro rfl
      rw [hlong'] at hkeep
      exact absurd hkeep (by simp [Ignored])
    exact Or.inr ⟨hlong.trans hlong', b, entry, hb, by omega, hentry, hprice.trans hprice',
      htime.trans htime', not_taken_succ hopen ha hne⟩

/-- One bar. -/
lemma Tracks.step (hbar : bars[i]? = some bar) (ha : actions[i]? = some a)
    (h : Tracks fee actions bars i run) :
    Tracks fee actions bars (i + 1) (barStep fee a bar run) := by
  rcases barStep_cases fee a bar run with ⟨hbuy, hflat, hlong, hprice, htime, hsame⟩ |
    ⟨hsell, hlong, hflat, hadd⟩ | ⟨hkeep, hlong, hprice, htime, hsame⟩
  · rw [hbuy] at ha
    exact h.opened hbar ha hflat (by rw [hlong]) hprice htime hsame
  · rw [hsell] at ha
    exact h.closed hbar ha hlong hflat hadd
  · exact h.kept ha hkeep hlong hprice htime hsame

end

lemma tracks_of_run (strategy : Strategy σ K) (fee : K) (state : σ) (bars : List (Bar K)) :
    ∀ i ≤ bars.length,
      Tracks fee (emitted strategy state bars) bars i (runAt strategy fee state bars i) := by
  refine runAt_induction strategy fee state bars ?_ ?_
  · exact ⟨0, [], .nil, le_rfl, .nil, Or.inl ⟨rfl, fun k _ hk => absurd hk (by omega)⟩⟩
  · intro i a bar hbar ha hstep h
    rw [hstep]
    exact h.step hbar ha

omit [LinearOrder K] in
/-- The close after the last bar completes the matching. -/
lemma Tracks.finish {fee : K} {actions : List Action} {bars : List (Bar K)} {last : Bar K}
    {run : Run K} (hlen : actions.length = bars.length) (hlast : bars.getLast? = some last)
    (h : Tracks fee actions bars bars.length run) :
    ∃ ps, Greedy actions bars.length 0 ps ∧
      List.Forall₂ (TradeOn fee bars) (closeAtEnd fee last run).tradeLog ps := by
  obtain ⟨start, closed, hclosed, -, hlog, hpos⟩ := h
  -- there is no action after the last bar
  have hover : ∀ {k : ℕ} {a : Action}, ¬ k < bars.length → actions[k]? ≠ some a := by
    intro k a hk
    rw [List.getElem?_eq_none (by omega)]
    simp
  rcases hpos with ⟨hflat, hnone⟩ | ⟨hlong, b, entry, hb, -, hentry, hprice, htime, hopen⟩
  · refine ⟨closed, ?_, ?_⟩
    · have hdone : Greedy actions bars.length start [] := by
        refine .done fun k hk => ?_
        by_cases hlt : k < bars.length
        · exact hnone k hk hlt
        · exact hover hlt
      have hall := hclosed.greedy hdone
      rwa [List.append_nil] at hall
    · rw [closeAtEnd, if_neg (by simp [hflat])]
      exact hlog
  · refine ⟨closed ++ [(b, bars.length - 1)], ?_, ?_⟩
    · refine hclosed.greedy (.last hb fun k hk => ?_)
      by_cases hlt : k < bars.length
      · exact hopen k hk hlt
      · exact hover hlt
    · rw [closeAtEnd, if_pos hlong, closingTrade_eq hprice htime]
      rw [List.getLast?_eq_getElem?] at hlast
      exact List.rel_append hlog (List.Forall₂.cons ⟨entry, last, hentry, hlast, rfl⟩ .nil)

/-! ## The order of time -/

omit [Field K] [LinearOrder K] in
/-- A later bar has a later time. -/
lemma time_lt {bars : List (Bar K)} (htimes : bars.Pairwise fun x y => x.time < y.time) {i j : ℕ}
    {x y : Bar K} (hx : bars[i]? = some x) (hy : bars[j]? = some y) (hij : i < j) :
    x.time < y.time := by
  obtain ⟨hi, rfl⟩ := List.getElem?_eq_some_iff.mp hx
  obtain ⟨hj, rfl⟩ := List.getElem?_eq_some_iff.mp hy
  exact List.pairwise_iff_getElem.mp htimes i j hi hj hij

omit [LinearOrder K] in
lemma exists_tradeOn {fee : K} {bars : List (Bar K)} {log : List (TradeRecord K)}
    {ps : List (ℕ × ℕ)} (h : List.Forall₂ (TradeOn fee bars) log ps) {t : TradeRecord K}
    (ht : t ∈ log) : ∃ p ∈ ps, TradeOn fee bars t p := by
  induction h with
  | nil => exact absurd ht (by simp)
  | cons hhead _ ih =>
    rcases List.mem_cons.mp ht with heq | hmem
    · rw [heq]
      exact ⟨_, List.mem_cons_self .., hhead⟩
    · obtain ⟨p, hp, hon⟩ := ih hmem
      exact ⟨p, List.mem_cons_of_mem _ hp, hon⟩

omit [LinearOrder K] in
/-- Records of trades that follow one another are in the order of time. -/
lemma pairwise_of_tradeOn {fee : K} {bars : List (Bar K)}
    (htimes : bars.Pairwise fun x y => x.time < y.time) {log : List (TradeRecord K)}
    {ps : List (ℕ × ℕ)} (h : List.Forall₂ (TradeOn fee bars) log ps)
    (hps : ps.Pairwise fun p q => p.2 < q.1) :
    log.Pairwise fun t u => t.exitTime < u.entryTime := by
  induction h with
  | nil => exact List.Pairwise.nil
  | cons ht hrest ih =>
    rw [List.pairwise_cons] at hps ⊢
    refine ⟨fun u hu => ?_, ih hps.2⟩
    obtain ⟨entry, exit, -, hexit, rfl⟩ := ht
    obtain ⟨q, hq, entry', exit', hentry', -, rfl⟩ := exists_tradeOn hrest hu
    exact time_lt htimes hexit hentry' (hps.1 q hq)

omit [Field K] [LinearOrder K] in
/-- No sell closes two trades. -/
lemma Greedy.nodup_exits {actions : List Action} {i : ℕ} {ps : List (ℕ × ℕ)}
    (h : Greedy actions actions.length i ps) : (ps.map Prod.snd).Nodup := by
  obtain ⟨hpairs, hall⟩ := h.ordered
  rw [List.nodup_iff_pairwise_ne, List.pairwise_map]
  refine hpairs.imp_of_mem ?_
  intro p q _ hq hpq
  obtain ⟨-, -, hle⟩ := hall q hq
  omega

omit [LinearOrder K] in
/-- A trade ends after it begins, unless it is opened on the last bar. -/
lemma entryTime_lt_exitTime {fee : K} {bars : List (Bar K)} {actions : List Action}
    (htimes : bars.Pairwise fun x y => x.time < y.time) (hacts : actions.length = bars.length)
    {log : List (TradeRecord K)} {ps : List (ℕ × ℕ)} (h : Greedy actions actions.length 0 ps)
    (hlog : List.Forall₂ (TradeOn fee bars) log ps) {t : TradeRecord K} (ht : t ∈ log) :
    t.entryTime < t.exitTime ∨
      t.entryTime = t.exitTime ∧ bars.getLast?.map Bar.time = some t.entryTime := by
  obtain ⟨p, hp, entry, exit, hentry, hexit, rfl⟩ := exists_tradeOn hlog ht
  obtain ⟨-, -, hlt | ⟨heq, hend⟩⟩ := h.ordered.2 p hp
  · exact Or.inl (time_lt htimes hentry hexit hlt)
  · right
    rw [heq, hexit] at hentry
    rw [heq, hacts] at hend
    rw [hend, ← List.getLast?_eq_getElem?] at hexit
    rw [hexit, Option.some.inj hentry]
    exact ⟨rfl, rfl⟩

/-- An action without effect may be left out of a script. -/
lemma loop_ignored (fee : K) (pre : List Action) {a : Action} (post : List Action)
    (bars : List (Bar K)) (run : Run K) (h : Ignored (pre.foldl Action.apply run.longPos) a) :
    (loop scripted fee bars (pre ++ a :: post) run).2 =
      (loop scripted fee bars (pre ++ .hold :: post) run).2 := by
  induction pre generalizing bars run with
  | nil =>
    cases bars with
    | nil => rfl
    | cons bar bars =>
      show (loop scripted fee bars post (barStep fee a bar run)).2 =
        (loop scripted fee bars post (barStep fee .hold bar run)).2
      rw [barStep_of_ignored fee h]
  | cons x pre ih =>
    cases bars with
    | nil => rfl
    | cons bar bars =>
      refine ih bars (barStep fee x bar run) ?_
      rw [barStep_longPos]
      exact h

lemma runBacktest_ignored (sqrt : K → K) {pre : List Action} {a : Action} (post : List Action)
    (bars : List (Bar K)) (commissionPct annualization : K) (h : Ignored (position pre) a) :
    runBacktest sqrt scripted (pre ++ a :: post) bars commissionPct annualization =
      runBacktest sqrt scripted (pre ++ .hold :: post) bars commissionPct annualization := by
  rw [runBacktest, runBacktest]
  split
  · rfl
  · next hlen =>
    have hne : bars ≠ [] := List.ne_nil_of_length_pos (by omega)
    have hloop := loop_ignored (commissionPct / 100) pre post bars
      { prevClose := (bars.head hne).close } h
    simp only [hloop]

/-- **The trade log.** For any strategy and any bars in the order of time, the trades of the report
are the greedy matching of the actions of the strategy, which is unique, each between the bars of
its entry and its exit. No sell closes two trades; the trades are in the order of time, each over
before the next begins; and each ends after it begins, unless it is opened on the last bar. In any
script, a buy while long and a sell while flat can be left out without a change of the report. -/
theorem tradeLog_greedy (sqrt : K → K) (strategy : Strategy σ K) (state : σ)
    (bars : List (Bar K)) (commissionPct annualization : K) (hlen : 2 ≤ bars.length)
    (htimes : bars.Pairwise fun x y => x.time < y.time) :
    (∃ ps, Greedy (emitted strategy state bars) bars.length 0 ps ∧
      (∀ ps', Greedy (emitted strategy state bars) bars.length 0 ps' → ps' = ps) ∧
      List.Forall₂ (TradeOn (commissionPct / 100) bars)
        (runBacktest sqrt strategy state bars commissionPct annualization).tradeLog ps ∧
      (ps.map Prod.snd).Nodup) ∧
    (runBacktest sqrt strategy state bars commissionPct annualization).tradeLog.Pairwise
      (fun t u => t.exitTime < u.entryTime) ∧
    (∀ t ∈ (runBacktest sqrt strategy state bars commissionPct annualization).tradeLog,
      t.entryTime < t.exitTime ∨
        t.entryTime = t.exitTime ∧ bars.getLast?.map Bar.time = some t.entryTime) ∧
    ∀ (pre : List Action) (a : Action) (post : List Action), Ignored (position pre) a →
      runBacktest sqrt scripted (pre ++ a :: post) bars commissionPct annualization =
        runBacktest sqrt scripted (pre ++ .hold :: post) bars commissionPct annualization := by
  have hne : bars ≠ [] := List.ne_nil_of_length_pos (by omega)
  have hlast := List.getLast?_eq_some_getLast hne
  have hacts : (emitted strategy state bars).length = bars.length := length_emitted ..
  obtain ⟨ps, hgreedy, hlog⟩ := (tracks_of_run strategy (commissionPct / 100) state bars
    bars.length le_rfl).finish hacts hlast
  have hmatch := hgreedy
  rw [← hacts] at hmatch
  rw [runBacktest_eq strategy state bars sqrt commissionPct annualization hlen
    (List.head?_eq_some_head hne) hlast]
  exact ⟨⟨ps, hgreedy, fun ps' h' => h'.unique hgreedy, hlog, hmatch.nodup_exits⟩,
    pairwise_of_tradeOn htimes hlog hmatch.ordered.1,
    fun t ht => entryTime_lt_exitTime htimes hacts hmatch hlog ht,
    fun pre a post h => runBacktest_ignored sqrt post bars commissionPct annualization h⟩

/-- A sell while flat, a trade with a buy while long, and a position opened on the last bar. -/
theorem tradeLog_greedy_two_trades :
    (runBacktest (fun x : ℚ => x) scripted [.sell, .buy, .buy, .sell, .buy]
        (makeBars [100, 100, 110, 121, 121]) 0 252).trades = 2 ∧
      (runBacktest (fun x : ℚ => x) scripted [.sell, .buy, .buy, .sell, .buy]
        (makeBars [100, 100, 110, 121, 121]) 0 252).tradeLog.Pairwise
        (fun t u => t.exitTime < u.entryTime) := by
  refine ⟨by decide +kernel, ?_⟩
  exact (tradeLog_greedy (fun x : ℚ => x) scripted [.sell, .buy, .buy, .sell, .buy]
    (makeBars [100, 100, 110, 121, 121]) 0 252 (by decide +kernel) (by decide +kernel)).2.1

end Algo
end TInvest
