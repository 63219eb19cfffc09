import TInvest.Lib.Numerals
import TInvest.Lib.Signed
import TInvest.Lib.Separated
import TInvest.Lib.MapFold
import TInvest.Lib.Transition
import TInvest.Lib.Interaction
import TInvest.Lib.Rounding
import TInvest.Lib.ErrorBounds
import TInvest.Lib.FixedWindow
import TInvest.Lib.Mealy
import TInvest.Lib.Drawdown
import TInvest.Lib.SlidingWindow
import TInvest.Lib.Mean
import TInvest.Lib.Smoothing
import TInvest.Error
import TInvest.Decimal.Basic
import TInvest.Decimal.Theorems
import TInvest.Decimal.Text
import TInvest.Decimal.TextTheorems
import TInvest.Decimal.RoundingTheorems
import TInvest.Decimal.Expressions
import TInvest.Decimal.Cancellation
import TInvest.Decimal.Grammar
import TInvest.Decimal.GrammarTheorems
import TInvest.Stream.Messages
import TInvest.Stream.Registry
import TInvest.Stream.RegistryTheorems
import TInvest.Stream.Session
import TInvest.Stream.Threads
import TInvest.Stream.MarketDataStream
import TInvest.Stream.MarketDataStreamSteps
import TInvest.Stream.Connection
import TInvest.Stream.RegistryRuns
import TInvest.Stream.Writes
import TInvest.Stream.Subscriptions
import TInvest.Stream.MarketDataSession
import TInvest.Stream.ServerStream
import TInvest.Stream.ServerStreamTheorems
import TInvest.Stream.Lifecycle
import TInvest.Stream.Shutdown
import TInvest.Stream.Delivery
import TInvest.Stream.Backoff
import TInvest.RateLimiter.Basic
import TInvest.RateLimiter.Steps
import TInvest.RateLimiter.Windows
import TInvest.RateLimiter.Reconfiguration
import TInvest.RateLimiter.Reload
import TInvest.RateLimiter.Isolation
import TInvest.RateLimiter.Wakeups
import TInvest.Call.Unary
import TInvest.Call.UnaryTheorems
import TInvest.Call.RetryOverride
import TInvest.Call.OrdersService
import TInvest.Call.UnaryAsync
import TInvest.Call.UnaryAsyncTheorems
import TInvest.Call.Awaitable
import TInvest.Call.AwaitableInvariant
import TInvest.Call.AwaitableSteps
import TInvest.Call.AwaitableTheorems
import TInvest.Call.CoroTrade
import TInvest.Algo.Backtest
import TInvest.Algo.BacktestTheorems
import TInvest.Algo.Runs
import TInvest.Algo.EquityCurve
import TInvest.Algo.TradeLog
import TInvest.Algo.Indicators
import TInvest.Algo.Strategies
import TInvest.Algo.Averages
import TInvest.Algo.RsiTheorems
import TInvest.Algo.Bands
import TInvest.Algo.Crossovers
import TInvest.Algo.CrossRules
import TInvest.Algo.PriceUnits
import TInvest.Algo.Commission
import TInvest.Algo.PaperTrade
