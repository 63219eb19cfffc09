import TInvest.Stream.Messages

/-!
# The subscription registry

`single`, `keys_of`, `action_of`, `remember_locked` and `forget_locked` of
`src/market_data_stream.cpp`. The registry is the `std::map` from a subscription key to the
one-instrument request that is replayed for it; `std::map` orders its keys, so it is an
ordered map with extensional equality. `std::string` compares bytes and `String` code points,
which is the same order on UTF-8 text.

`Target` is what a key stands for, stated without strings.
-/

namespace TInvest

open Pb

/-- `subscriptions_`. -/
abbrev Registry := Std.ExtTreeMap String MarketDataRequest compare

/-- `i.instrument_id().empty() ? i.figi() : i.instrument_id()`. -/
def effectiveId (instrumentId figi : String) : String :=
  if instrumentId.isEmpty then figi else instrumentId

/-- `single`: the request with the instrument at one index only. The index is in range at
every call. -/
def single (src : MarketDataRequest) (i : ℕ) : MarketDataRequest :=
  match src with
  | .subscribeCandlesRequest p =>
    .subscribeCandlesRequest { p with instruments := p.instruments[i]?.toList }
  | .subscribeOrderBookRequest p =>
    .subscribeOrderBookRequest { p with instruments := p.instruments[i]?.toList }
  | .subscribeTradesRequest p =>
    .subscribeTradesRequest { p with instruments := p.instruments[i]?.toList }
  | .subscribeInfoRequest p =>
    .subscribeInfoRequest { p with instruments := p.instruments[i]?.toList }
  | .subscribeLastPriceRequest p =>
    .subscribeLastPriceRequest { p with instruments := p.instruments[i]?.toList }
  | _ => .notSet

/-- `keys_of`. -/
def keysOf (r : MarketDataRequest) : List String :=
  match r with
  | .subscribeCandlesRequest p => p.instruments.map fun i =>
    "candles|" ++ effectiveId i.instrumentId i.figi ++ "|" ++ Int.repr i.interval.value.toInt
  | .subscribeOrderBookRequest p => p.instruments.map fun i =>
    "orderbook|" ++ effectiveId i.instrumentId i.figi ++ "|" ++ Int.repr i.depth.toInt ++ "|"
      ++ Int.repr i.orderBookType.value.toInt
  | .subscribeTradesRequest p => p.instruments.map fun i =>
    "trades|" ++ effectiveId i.instrumentId i.figi
  | .subscribeInfoRequest p => p.instruments.map fun i =>
    "info|" ++ effectiveId i.instrumentId i.figi
  | .subscribeLastPriceRequest p => p.instruments.map fun i =>
    "last_price|" ++ effectiveId i.instrumentId i.figi
  | _ => []

/-- `action_of`. -/
def actionOf (r : MarketDataRequest) : SubscriptionAction :=
  match r with
  | .subscribeCandlesRequest p => p.subscriptionAction
  | .subscribeOrderBookRequest p => p.subscriptionAction
  | .subscribeTradesRequest p => p.subscriptionAction
  | .subscribeInfoRequest p => p.subscriptionAction
  | .subscribeLastPriceRequest p => p.subscriptionAction
  | _ => .unspecified

/-- `remember_locked`. -/
def rememberLocked (subscriptions : Registry) (request : MarketDataRequest) : Registry :=
  (keysOf request).zipIdx.foldl
    (fun reg key => reg.insert key.1 (single request key.2)) subscriptions

/-- `forget_locked`. -/
def forgetLocked (subscriptions : Registry) (request : MarketDataRequest) : Registry :=
  (keysOf request).foldl (fun reg key => reg.erase key) subscriptions

/-- What `send` does to the registry for a request sent with `remember = true`. -/
def recordRequest (subscriptions : Registry) (request : MarketDataRequest) : Registry :=
  if actionOf request = .subscribe then rememberLocked subscriptions request
  else if actionOf request = .unsubscribe then forgetLocked subscriptions request
  else subscriptions

/-- The requests `run_once` queues: the whole registry, in key order. -/
def replay (subscriptions : Registry) : List MarketDataRequest :=
  subscriptions.toList.map Prod.snd

/-! ## Subscription targets -/

/-- What one instrument entry subscribes to: its kind, its effective id, and the interval of
a candle or the depth and type of an order book. -/
inductive Target where
  | candles (id : String) (interval : SubscriptionInterval)
  | orderBook (id : String) (depth : Int32) (orderBookType : OrderBookType)
  | trades (id : String)
  | info (id : String)
  | lastPrice (id : String)
deriving DecidableEq

/-- The targets a request mentions, one for each instrument, in order. -/
def targetsOf (r : MarketDataRequest) : List Target :=
  match r with
  | .subscribeCandlesRequest p =>
    p.instruments.map fun i => .candles (effectiveId i.instrumentId i.figi) i.interval
  | .subscribeOrderBookRequest p =>
    p.instruments.map fun i =>
      .orderBook (effectiveId i.instrumentId i.figi) i.depth i.orderBookType
  | .subscribeTradesRequest p =>
    p.instruments.map fun i => .trades (effectiveId i.instrumentId i.figi)
  | .subscribeInfoRequest p =>
    p.instruments.map fun i => .info (effectiveId i.instrumentId i.figi)
  | .subscribeLastPriceRequest p =>
    p.instruments.map fun i => .lastPrice (effectiveId i.instrumentId i.figi)
  | _ => []

/-- The registry key of a target. -/
def Target.key : Target → String
  | .candles id interval => "candles|" ++ id ++ "|" ++ Int.repr interval.value.toInt
  | .orderBook id depth orderBookType =>
    "orderbook|" ++ id ++ "|" ++ Int.repr depth.toInt ++ "|"
      ++ Int.repr orderBookType.value.toInt
  | .trades id => "trades|" ++ id
  | .info id => "info|" ++ id
  | .lastPrice id => "last_price|" ++ id

/-- Everything of a request but its instruments: its kind, its action and its options. -/
def withoutInstruments (r : MarketDataRequest) : MarketDataRequest :=
  match r with
  | .subscribeCandlesRequest p => .subscribeCandlesRequest { p with instruments := [] }
  | .subscribeOrderBookRequest p => .subscribeOrderBookRequest { p with instruments := [] }
  | .subscribeTradesRequest p => .subscribeTradesRequest { p with instruments := [] }
  | .subscribeInfoRequest p => .subscribeInfoRequest { p with instruments := [] }
  | .subscribeLastPriceRequest p => .subscribeLastPriceRequest { p with instruments := [] }
  | r => r

end TInvest
