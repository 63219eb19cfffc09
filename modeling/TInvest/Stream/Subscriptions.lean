import TInvest.Stream.Writes

/-!
# The subscription interface

The methods by which a user subscribes and unsubscribes, and what they are for: a table from
subscription targets to the options they are subscribed with. A SUBSCRIBE writes the entries of
its targets and an UNSUBSCRIBE clears them, on both sides of the connection.

* `Method.outgoing` — the request each method sends;
* `serve` — what one request does to the table of the server;
* `view_recordRequest` — the registry does the same, under keys and with one-instrument requests;
* `serve_outgoing` — and so does the method itself, stated by its arguments;
* `subscriptions_follow_calls` — so registry and server agree with the calls of the user.
-/

namespace TInvest
namespace MarketDataStream

open Pb
open Lib.Transition

/-! ## The methods -/

/-- `subscribe_candles`. -/
def subscribeCandles (ids : List String) (interval : SubscriptionInterval := .oneMinute)
    (waitingClose : Bool := true) : Outgoing :=
  { request := .subscribeCandlesRequest
      { subscriptionAction := .subscribe
        waitingClose := waitingClose
        instruments := ids.map fun id => { instrumentId := id, interval := interval } }
    remembered := true }

/-- `unsubscribe_candles`. -/
def unsubscribeCandles (ids : List String) (interval : SubscriptionInterval := .oneMinute) :
    Outgoing :=
  { request := .subscribeCandlesRequest
      { subscriptionAction := .unsubscribe
        instruments := ids.map fun id => { instrumentId := id, interval := interval } }
    remembered := true }

/-- `subscribe_order_book`. -/
def subscribeOrderBook (ids : List String) (depth : Int32 := 10)
    (type : OrderBookType := .unspecified) : Outgoing :=
  { request := .subscribeOrderBookRequest
      { subscriptionAction := .subscribe
        instruments := ids.map fun id =>
          { instrumentId := id, depth := depth, orderBookType := type } }
    remembered := true }

/-- `unsubscribe_order_book`. -/
def unsubscribeOrderBook (ids : List String) (depth : Int32 := 10)
    (type : OrderBookType := .unspecified) : Outgoing :=
  { request := .subscribeOrderBookRequest
      { subscriptionAction := .unsubscribe
        instruments := ids.map fun id =>
          { instrumentId := id, depth := depth, orderBookType := type } }
    remembered := true }

/-- `subscribe_trades`. -/
def subscribeTrades (ids : List String) (withOpenInterest : Bool := false) : Outgoing :=
  { request := .subscribeTradesRequest
      { subscriptionAction := .subscribe
        withOpenInterest := withOpenInterest
        instruments := ids.map fun id => { instrumentId := id } }
    remembered := true }

/-- `unsubscribe_trades`. -/
def unsubscribeTrades (ids : List String) : Outgoing :=
  { request := .subscribeTradesRequest
      { subscriptionAction := .unsubscribe
        instruments := ids.map fun id => { instrumentId := id } }
    remembered := true }

/-- `subscribe_last_prices`. -/
def subscribeLastPrices (ids : List String) : Outgoing :=
  { request := .subscribeLastPriceRequest
      { subscriptionAction := .subscribe
        instruments := ids.map fun id => { instrumentId := id } }
    remembered := true }

/-- `unsubscribe_last_prices`. -/
def unsubscribeLastPrices (ids : List String) : Outgoing :=
  { request := .subscribeLastPriceRequest
      { subscriptionAction := .unsubscribe
        instruments := ids.map fun id => { instrumentId := id } }
    remembered := true }

/-- `subscribe_info`. -/
def subscribeInfo (ids : List String) : Outgoing :=
  { request := .subscribeInfoRequest
      { subscriptionAction := .subscribe
        instruments := ids.map fun id => { instrumentId := id } }
    remembered := true }

/-- `unsubscribe_info`. -/
def unsubscribeInfo (ids : List String) : Outgoing :=
  { request := .subscribeInfoRequest
      { subscriptionAction := .unsubscribe
        instruments := ids.map fun id => { instrumentId := id } }
    remembered := true }

/-- `get_my_subscriptions`. -/
def getMySubscriptions : Outgoing := { request := .getMySubscriptions, remembered := false }

/-- A call of one of the methods, with its arguments. -/
inductive Method where
  | subscribeCandles (ids : List String) (interval : SubscriptionInterval) (waitingClose : Bool)
  | unsubscribeCandles (ids : List String) (interval : SubscriptionInterval)
  | subscribeOrderBook (ids : List String) (depth : Int32) (type : OrderBookType)
  | unsubscribeOrderBook (ids : List String) (depth : Int32) (type : OrderBookType)
  | subscribeTrades (ids : List String) (withOpenInterest : Bool)
  | unsubscribeTrades (ids : List String)
  | subscribeLastPrices (ids : List String)
  | unsubscribeLastPrices (ids : List String)
  | subscribeInfo (ids : List String)
  | unsubscribeInfo (ids : List String)
  | getMySubscriptions

/-- What the method passes to `send`. -/
def Method.outgoing : Method → Outgoing
  | subscribeCandles ids interval waitingClose =>
    MarketDataStream.subscribeCandles ids interval waitingClose
  | unsubscribeCandles ids interval => MarketDataStream.unsubscribeCandles ids interval
  | subscribeOrderBook ids depth type => MarketDataStream.subscribeOrderBook ids depth type
  | unsubscribeOrderBook ids depth type => MarketDataStream.unsubscribeOrderBook ids depth type
  | subscribeTrades ids withOpenInterest =>
    MarketDataStream.subscribeTrades ids withOpenInterest
  | unsubscribeTrades ids => MarketDataStream.unsubscribeTrades ids
  | subscribeLastPrices ids => MarketDataStream.subscribeLastPrices ids
  | unsubscribeLastPrices ids => MarketDataStream.unsubscribeLastPrices ids
  | subscribeInfo ids => MarketDataStream.subscribeInfo ids
  | unsubscribeInfo ids => MarketDataStream.unsubscribeInfo ids
  | getMySubscriptions => MarketDataStream.getMySubscriptions

/-! ## Tables of subscriptions -/

/-- The options a target is subscribed with. -/
structure Options where
  waitingClose : Bool := false
  candleSourceType : Option CandleSource := none
  tradeSource : TradeSourceType := ⟨0⟩
  withOpenInterest : Bool := false
deriving DecidableEq

/-- What is subscribed, and how. -/
abbrev Table := Target → Option Options

/-- Nothing is subscribed. -/
def Table.empty : Table := fun _ => none

/-- The entries of some targets are set. -/
def Table.set (σ : Table) (targets : List Target) (entry : Option Options) : Table :=
  fun t => if t ∈ targets then entry else σ t

/-- The options of a request. -/
def optionsOf (r : MarketDataRequest) : Options :=
  match r with
  | .subscribeCandlesRequest p =>
    { waitingClose := p.waitingClose, candleSourceType := p.candleSourceType }
  | .subscribeTradesRequest p =>
    { tradeSource := p.tradeSource, withOpenInterest := p.withOpenInterest }
  | _ => {}

/-- What a request does to the table of the server. -/
def serve (σ : Table) (r : MarketDataRequest) : Table :=
  if actionOf r = .subscribe then σ.set (targetsOf r) (some (optionsOf r))
  else if actionOf r = .unsubscribe then σ.set (targetsOf r) none
  else σ

/-- The same of a call of a method, by its arguments. -/
def Method.effect (σ : Table) : Method → Table
  | subscribeCandles ids interval waitingClose =>
    σ.set (ids.map (.candles · interval)) (some { waitingClose := waitingClose })
  | unsubscribeCandles ids interval => σ.set (ids.map (.candles · interval)) none
  | subscribeOrderBook ids depth type => σ.set (ids.map (.orderBook · depth type)) (some {})
  | unsubscribeOrderBook ids depth type => σ.set (ids.map (.orderBook · depth type)) none
  | subscribeTrades ids withOpenInterest =>
    σ.set (ids.map .trades) (some { withOpenInterest := withOpenInterest })
  | unsubscribeTrades ids => σ.set (ids.map .trades) none
  | subscribeLastPrices ids => σ.set (ids.map .lastPrice) (some {})
  | unsubscribeLastPrices ids => σ.set (ids.map .lastPrice) none
  | subscribeInfo ids => σ.set (ids.map .info) (some {})
  | unsubscribeInfo ids => σ.set (ids.map .info) none
  | getMySubscriptions => σ

/-- The registry as a table. -/
def view (reg : Registry) : Table := fun t => reg[t.key]?.map optionsOf

/-! ## Refinement -/

lemma effectiveId_empty (id : String) : effectiveId id "" = id := by
  unfold effectiveId
  split
  · next h => exact (String.isEmpty_iff.mp h).symm
  · rfl

/-- **A method does what its request does.** -/
lemma serve_outgoing (σ : Table) (m : Method) : serve σ m.outgoing.request = m.effect σ := by
  cases m <;>
    simp [Method.outgoing, Method.effect, serve, actionOf, targetsOf, optionsOf, effectiveId_empty,
      subscribeCandles, unsubscribeCandles, subscribeOrderBook, unsubscribeOrderBook,
      subscribeTrades, unsubscribeTrades, subscribeLastPrices, unsubscribeLastPrices,
      subscribeInfo, unsubscribeInfo, getMySubscriptions, Function.comp_def,
      SubscriptionAction.subscribe, SubscriptionAction.unsubscribe,
      SubscriptionAction.unspecified]

lemma optionsOf_single (r : MarketDataRequest) (i : ℕ) : optionsOf (single r i) = optionsOf r := by
  cases r <;> rfl

/-- **The registry does what the request does.** -/
lemma view_recordRequest (reg : Registry) (r : MarketDataRequest) :
    view (recordRequest reg r) = serve (view reg) r := by
  funext t
  obtain ⟨hsub, hunsub, hother⟩ := lookup_recordRequest reg t r
  unfold view serve Table.set
  by_cases hd : Decides t r
  · by_cases hs : actionOf r = .subscribe
    · -- the entry is the one-instrument request, which keeps the options
      obtain ⟨j, -, hval⟩ := hsub hd hs
      rw [hval, if_pos hs, if_pos hd.1]
      exact congrArg some (optionsOf_single r j)
    · rw [hunsub hd hs, if_neg hs, if_pos (hd.2.resolve_left hs), if_pos hd.1]
      rfl
  · rw [hother hd]
    split
    · next hs => exact (if_neg fun hmem => hd ⟨hmem, Or.inl hs⟩).symm
    · split
      · next hu => exact (if_neg fun hmem => hd ⟨hmem, Or.inr hu⟩).symm
      · rfl

lemma view_foldl (reg : Registry) (requests : List MarketDataRequest) :
    view (requests.foldl recordRequest reg) = requests.foldl serve (view reg) := by
  induction requests generalizing reg with
  | nil => rfl
  | cons r requests ih => rw [List.foldl_cons, List.foldl_cons, ih, view_recordRequest]

lemma view_empty : view ∅ = Table.empty := by
  funext t
  simp [view, Table.empty]

/-- What is not remembered is the question for the subscriptions, which changes nothing. -/
lemma foldl_remembered {os : List Outgoing} (hos : ∀ o ∈ os, o.remembered = true ∨
    o.request = .getMySubscriptions) (σ : Table) :
    ((os.filter Outgoing.remembered).map Outgoing.request).foldl serve σ
      = (os.map Outgoing.request).foldl serve σ := by
  induction os generalizing σ with
  | nil => rfl
  | cons o os ih =>
    have ih := ih fun o' ho' => hos o' (List.mem_cons_of_mem _ ho')
    by_cases hr : o.remembered = true
    · rw [List.filter_cons_of_pos hr]
      exact ih _
    · have hask : o.request = .getMySubscriptions :=
        (hos o List.mem_cons_self).resolve_left hr
      rw [List.filter_cons_of_neg hr, List.map_cons, List.foldl_cons, hask]
      exact ih σ

lemma Method.remembered_or (m : Method) :
    m.outgoing.remembered = true ∨ m.outgoing.request = .getMySubscriptions := by
  cases m <;> first | exact Or.inl rfl | exact Or.inr rfl

/-! ## Runs -/

variable {cfg : Config} {s s' : State} {a : Action} {c w w' : ℕ} {pc pc' : Pc Once}

/-- The calls of `send` that were accepted, in the order of their critical sections. -/
def accepted (trace : List Event) : List Outgoing :=
  trace.filterMap fun
    | .sent o true => some o
    | _ => none

lemma remembered_eq (trace : List Event) :
    remembered trace = ((accepted trace).filter Outgoing.remembered).map Outgoing.request := by
  induction trace with
  | nil => rfl
  | cons e trace ih =>
    unfold remembered accepted at *
    cases e with
    | sent o b =>
      rcases o with ⟨request, _ | _⟩ <;> cases b <;> simp [ih]
    | _ => simpa using ih

lemma mem_sends_of_accepted {trace : List Event} {o : Outgoing} (h : o ∈ accepted trace) :
    o ∈ sends trace := by
  obtain ⟨e, he, heq⟩ := List.mem_filterMap.mp h
  refine List.mem_filterMap.mpr ⟨e, he, ?_⟩
  cases e with
  | sent o' b =>
    cases b with
    | true => exact heq
    | false => exact absurd heq (by simp)
  | _ => exact absurd heq (by simp)

/-- The calls of `send` an action makes. -/
def Action.sent : Action → List Outgoing
  | .send request remember => [⟨request, remember⟩]
  | _ => []

lemma sends_calm (h : Calm s s' c) : sends s'.trace = sends s.trace := by
  obtain ⟨es, htrace, hes⟩ := h.trace
  rw [htrace, sends_append, sends_of_calm hes, List.append_nil]

lemma sends_maybeWriteLocked (s : State) : sends s.maybeWriteLocked.trace = sends s.trace := by
  obtain ⟨es, htrace, hsends, -⟩ := trace_maybeWriteLocked s 0
  rw [htrace, sends_append, hsends, List.append_nil]

lemma sends_of_move (hm : Move cfg s w pc a s' w' pc') :
    sends s'.trace = sends s.trace ++ a.sent := by
  -- an action that is not a call of `send`
  have hnone : sends s'.trace = sends s.trace → a.sent = [] →
      sends s'.trace = sends s.trace ++ a.sent :=
    fun hs ha => by rw [ha, List.append_nil, hs]
  cases hm with
  | stop t => exact hnone (sends_calm (c := 0) (calm_stop s t)) rfl
  | send request remember =>
    rcases send_cases s ⟨request, remember⟩ with ⟨-, h⟩ | ⟨-, -, h⟩ | ⟨c', -, -, h⟩ <;> rw [h]
    · exact sends_append ..
    · exact sends_append ..
    · rw [sends_maybeWriteLocked]
      exact sends_append ..
  | run worker es =>
    apply hnone ?_ rfl
    rw [sends_append, sends_of_calm (calm_session (c := 0) es), List.append_nil]
  | cancelled | fill =>
    apply hnone ?_ rfl
    unfold State.fill
    split
    · rfl
    · simp [State.emit, State.setPc, sends]
  | publish c' =>
    have hpub : sends (s.withReactor w c').trace = sends s.trace := by
      simp [State.withReactor, sends]
    apply hnone ?_ rfl
    rcases publish_cases s w c' with ⟨-, h⟩ | ⟨-, -, -, h⟩ | ⟨-, -, h⟩ <;> rw [h]
    · rfl
    · rw [sends_calm (c := 0) (calm_releaseLocked _ _), hpub]
    · rw [sends_maybeWriteLocked, hpub]
  | response c' r =>
    apply hnone ?_ rfl
    unfold State.handleResponse
    split <;> rfl
  | readClosed c' => exact hnone ((sends_calm (c := 0) (calm_readClosed _ _)).trans rfl) rfl
  | writeDone c' ok =>
    apply hnone ?_ rfl
    unfold State.handleWriteDone
    split
    · exact sends_maybeWriteLocked _
    · exact (sends_calm (c := 0) (calm_readClosed _ _)).trans rfl
  | joinable | finishOnce | startRead => exact hnone rfl rfl
  | _ =>
    exact hnone (by simp [sends, State.startCall, State.emit, State.setPc, State.setReactor,
      State.handleDone]) rfl

/-- Every call of `send` is made by one of the methods, none changes the registry between the
queue fill and the publication, and the launches are safe. -/
def Interface (s : State) (a : Action) : Prop :=
  GapFree s a ∧ ∀ o ∈ a.sent, ∃ m : Method, m.outgoing = o

/-- The calls of `send` come from methods. -/
def FromMethods (s : State) : Prop := ∀ o ∈ sends s.trace, ∃ m : Method, m.outgoing = o

lemma fromMethods_of_reachable (h : Reachable (system cfg) Interface s) : FromMethods s := by
  apply h.invariant (I := FromMethods)
  · intro o ho
    exact absurd ho (by simp [sends, system])
  · intro s a s' _ hold ha hs o ho
    obtain ⟨w, pc, w', pc', hm⟩ := exists_move_of_step hs
    rw [sends_of_move hm] at ho
    rcases List.mem_append.mp ho with ho | ho
    · exact hold o ho
    · exact ha.2 o ho

/-- What is told on a live connection was replayed or sent. -/
lemma mem_told (h : Reachable (system cfg) LaunchSafe s) (hlive : s.Live c) {o : Outgoing}
    (ho : o ∈ told s c) : o.remembered = true ∨ o ∈ sends s.trace := by
  have hok : ∀ s a, LaunchSafe s a → LaunchSafe s a := fun _ _ hsafe => hsafe
  obtain ⟨w, pc, hcur, hqueue⟩ := queueAt_of_reachable hok h
  obtain ⟨g, hg, hconn, -⟩ := connAt_of_current hok h hcur
  obtain rfl := hconn.eq_published hlive.1
  obtain rfl := pc_of_published hg
  obtain ⟨⟨pre, snapshot, mid, post, htrace, -, -, htold⟩, -⟩ := hqueue hlive
  rw [htold] at ho
  rcases List.mem_append.mp ho with ho | ho
  · left
    obtain ⟨r, -, rfl⟩ := List.mem_map.mp ho
    rfl
  · right
    obtain ⟨e, he, heq⟩ := List.mem_filterMap.mp ho
    exact List.mem_filterMap.mpr ⟨e, by rw [htrace]; simp [he], heq⟩

/-- **Registry and server follow the calls of the user.** In every run in which the user calls the
methods, from any threads, there is one list of calls, those that were accepted in the order of
their critical sections, such that the registry is the table these calls make; and on a live
connection the requests handed to `StartWrite` and those queued, taken in order by a server that
starts from nothing, make the same table. -/
theorem subscriptions_follow_calls (h : Reachable (system cfg) Interface s) :
    ∃ calls : List Method, calls.map Method.outgoing = accepted s.trace ∧
      view s.subscriptions = calls.foldl Method.effect Table.empty ∧
      ∀ c, s.Live c → ((told s c).map Outgoing.request).foldl serve Table.empty
        = calls.foldl Method.effect Table.empty := by
  have hgap : Reachable (system cfg) GapFree s := h.mono fun _ _ ha => ha.1
  have hmethods := fromMethods_of_reachable h
  -- the accepted calls are calls of methods
  have hcalls : ∃ calls : List Method, calls.map Method.outgoing = accepted s.trace := by
    rw [← Set.mem_range, Set.range_list_map]
    intro o ho
    exact hmethods o (mem_sends_of_accepted ho)
  obtain ⟨calls, hcalls⟩ := hcalls
  have hview : view s.subscriptions = calls.foldl Method.effect Table.empty := by
    have hrec : s.subscriptions = recordAll (remembered s.trace) := registry_of_reachable h
    rw [hrec, recordAll, view_foldl, view_empty, remembered_eq, ← hcalls, foldl_remembered]
    · rw [List.map_map, List.foldl_map]
      exact List.foldl_ext _ _ _ fun σ m _ => serve_outgoing σ m
    · intro o ho
      obtain ⟨m, -, rfl⟩ := List.mem_map.mp ho
      exact m.remembered_or
  refine ⟨calls, hcalls, hview, ?_⟩
  intro c hlive
  rw [← hview, ← foldl_toldRegistry hgap hlive, view_foldl, view_empty, toldRegistry,
    foldl_remembered]
  intro o ho
  rcases mem_told (hgap.mono fun _ _ ha => ha.1) hlive ho with hr | hr
  · exact Or.inl hr
  · obtain ⟨m, rfl⟩ := hmethods o hr
    exact m.remembered_or

/-- Two instruments are subscribed before the connection, and one of them is given up on it. -/
theorem subscriptions_follow_calls_two :
    ∃ s, Reachable (system demoConfig) Interface s ∧ s.Live 0 ∧
      ∃ calls : List Method, calls.map Method.outgoing
          = [subscribeTrades ["SBER", "GAZP"], getMySubscriptions, unsubscribeTrades ["SBER"]] ∧
        view s.subscriptions = calls.foldl Method.effect Table.empty ∧
        ((told s 0).map Outgoing.request).foldl serve Table.empty
          = calls.foldl Method.effect Table.empty := by
  obtain ⟨s, hreach, hp⟩ := exists_reachable_of_run (system demoConfig)
    (fun s a => NoGapSend s a ∧ ∀ o ∈ a.sent,
      o ∈ [subscribeTrades ["SBER", "GAZP"], getMySubscriptions, unsubscribeTrades ["SBER"]])
    (fun s => decide (s.Live 0) && decide (accepted s.trace
      = [subscribeTrades ["SBER", "GAZP"], getMySubscriptions, unsubscribeTrades ["SBER"]]))
    ([.send (subscribeTrades ["SBER", "GAZP"]).request true] ++ connectSteps ++
      [.send .getMySubscriptions false, .onWriteDone 0 true,
        .send (unsubscribeTrades ["SBER"]).request true])
    (by decide +kernel)
  rw [Bool.and_eq_true, decide_eq_true_eq, decide_eq_true_eq] at hp
  have hface : Reachable (system demoConfig) Interface s := by
    apply hreach.mono
    intro s a ⟨hgap, hsent⟩
    refine ⟨hgap.gapFree, ?_⟩
    intro o ho
    have hmem := hsent o ho
    simp only [List.mem_cons, List.not_mem_nil, or_false] at hmem
    rcases hmem with rfl | rfl | rfl
    · exact ⟨.subscribeTrades ["SBER", "GAZP"] false, rfl⟩
    · exact ⟨.getMySubscriptions, rfl⟩
    · exact ⟨.unsubscribeTrades ["SBER"], rfl⟩
  obtain ⟨calls, hcalls, hview, htold⟩ := subscriptions_follow_calls hface
  exact ⟨s, hface, hp.1, calls, hcalls.trans hp.2, hview, htold 0 hp.1⟩

end MarketDataStream
end TInvest
