import Mathlib

/-!
# Messages of the market-data stream

The protobuf messages of `contracts/marketdata.proto` that the streams read or build. A
proto3 enumeration is open: a field holds any `int32`, and the named values are constants.
A `oneof` is an inductive type with a constructor for the unset case.
-/

namespace TInvest
namespace Pb

/-- `SubscriptionAction`. -/
structure SubscriptionAction where
  value : Int32
deriving DecidableEq

namespace SubscriptionAction

def unspecified : SubscriptionAction := ⟨0⟩
def subscribe : SubscriptionAction := ⟨1⟩
def unsubscribe : SubscriptionAction := ⟨2⟩

end SubscriptionAction

/-- `SubscriptionInterval`. -/
structure SubscriptionInterval where
  value : Int32
deriving DecidableEq

/-- `SUBSCRIPTION_INTERVAL_ONE_MINUTE`. -/
def SubscriptionInterval.oneMinute : SubscriptionInterval := ⟨1⟩

/-- `OrderBookType`. -/
structure OrderBookType where
  value : Int32
deriving DecidableEq

/-- `ORDERBOOK_TYPE_UNSPECIFIED`. -/
def OrderBookType.unspecified : OrderBookType := ⟨0⟩

/-- `GetCandlesRequest.CandleSource`. -/
structure CandleSource where
  value : Int32
deriving DecidableEq

/-- `TradeSourceType`. -/
structure TradeSourceType where
  value : Int32
deriving DecidableEq

structure CandleInstrument where
  figi : String := ""
  interval : SubscriptionInterval
  instrumentId : String
deriving DecidableEq

structure OrderBookInstrument where
  figi : String := ""
  depth : Int32
  instrumentId : String
  orderBookType : OrderBookType
deriving DecidableEq

structure TradeInstrument where
  figi : String := ""
  instrumentId : String
deriving DecidableEq

structure InfoInstrument where
  figi : String := ""
  instrumentId : String
deriving DecidableEq

structure LastPriceInstrument where
  figi : String := ""
  instrumentId : String
deriving DecidableEq

structure SubscribeCandlesRequest where
  subscriptionAction : SubscriptionAction
  instruments : List CandleInstrument
  waitingClose : Bool := false
  candleSourceType : Option CandleSource := none
deriving DecidableEq

structure SubscribeOrderBookRequest where
  subscriptionAction : SubscriptionAction
  instruments : List OrderBookInstrument
deriving DecidableEq

structure SubscribeTradesRequest where
  subscriptionAction : SubscriptionAction
  instruments : List TradeInstrument
  tradeSource : TradeSourceType := ⟨0⟩
  withOpenInterest : Bool := false
deriving DecidableEq

structure SubscribeInfoRequest where
  subscriptionAction : SubscriptionAction
  instruments : List InfoInstrument
deriving DecidableEq

structure SubscribeLastPriceRequest where
  subscriptionAction : SubscriptionAction
  instruments : List LastPriceInstrument
deriving DecidableEq

/-- `PingRequest`; its time is seconds and nanoseconds. -/
structure PingRequest where
  time : Option (Int64 × Int32)
deriving DecidableEq

structure PingDelaySettings where
  pingDelayMs : Option Int32
deriving DecidableEq

/-- `MarketDataRequest`, by its payload. -/
inductive MarketDataRequest where
  | subscribeCandlesRequest (p : SubscribeCandlesRequest)
  | subscribeOrderBookRequest (p : SubscribeOrderBookRequest)
  | subscribeTradesRequest (p : SubscribeTradesRequest)
  | subscribeInfoRequest (p : SubscribeInfoRequest)
  | subscribeLastPriceRequest (p : SubscribeLastPriceRequest)
  | getMySubscriptions
  | ping (p : PingRequest)
  | pingSettings (p : PingDelaySettings)
  | notSet
deriving DecidableEq

/-- `MarketDataResponse`, by its payload case: the streams route on nothing else. -/
inductive MarketDataResponse where
  | subscribeCandlesResponse
  | subscribeOrderBookResponse
  | subscribeTradesResponse
  | subscribeInfoResponse
  | subscribeLastPriceResponse
  | candle
  | trade
  | orderbook
  | tradingStatus
  | ping
  | lastPrice
  | openInterest
  | notSet
deriving DecidableEq

end Pb
end TInvest
