import TInvest.Call.AwaitableTheorems
import TInvest.Decimal.Basic

/-!
# A sandbox trade as a coroutine

The coroutine `run` of `examples/coro_trade.cpp`: it opens a sandbox account, pays in, posts a
market order and closes the account. Requests hold the fields it sets and responses the fields it
reads; what it prints is left out.

`run_trace` says what such a run did, for every limiter, every server and every interleaving of the
threads.
-/

namespace TInvest
namespace CoroTrade

open Lib.Interaction
open Lib.Transition
open Awaitable

/-- `OrderDirection`. -/
inductive OrderDirection where
  | unspecified
  | buy
  | sell
deriving DecidableEq

/-- `OrderType`. -/
inductive OrderType where
  | unspecified
  | limit
  | market
  | bestprice
deriving DecidableEq

/-- The requests of `run`. -/
inductive Request where
  | openSandboxAccount
  | sandboxPayIn (accountId : String) (amount : Pb.MoneyValue)
  | postSandboxOrder (accountId instrumentId : String) (quantity : ℤ) (direction : OrderDirection)
    (orderType : OrderType)
  | closeSandboxAccount (accountId : String)
deriving DecidableEq

/-- `OpenSandboxAccountResponse`; nothing is read from the other responses. -/
structure Response where
  accountId : String := ""
deriving DecidableEq

/-- `Decimal(50'000).to_money("rub")`. -/
def payment : Pb.MoneyValue := Decimal.toMoney ⟨50000, 0⟩ "rub"

/-- `run`. -/
def run (instrument : String) : Body Request Response ℤ Empty :=
  .ask .openSandboxAccount fun
    | .error _ => .ret 1
    | .ok opened =>
      let accountId := opened.accountId
      .ask (.sandboxPayIn accountId payment) fun _ =>
        .ask (.postSandboxOrder accountId instrument 1 .buy .market) fun _ =>
          .ask (.closeSandboxAccount accountId) fun _ => .ret 0

/-- The requests on an opened account. -/
def requests (instrument accountId : String) : List Request :=
  [.sandboxPayIn accountId payment, .postSandboxOrder accountId instrument 1 .buy .market,
    .closeSandboxAccount accountId]

lemma eval_run {instrument : String} {log : List (Request × Result Response)}
    {x : Except Empty ℤ} (h : (run instrument).Eval log x) :
    (∃ e, x = .ok 1 ∧ log = [(.openSandboxAccount, .error e)]) ∨
    ∃ opened rest, x = .ok 0 ∧ log = (.openSandboxAccount, .ok opened) :: rest ∧
      rest.map Prod.fst = requests instrument opened.accountId := by
  rw [run] at h
  cases h with
  | @ask _ result _ log _ h =>
    cases result with
    | error e =>
      cases h
      exact Or.inl ⟨e, rfl, rfl⟩
    | ok opened =>
      right
      cases h with
      | ask h =>
        cases h with
        | ask h =>
          cases h with
          | ask h =>
            cases h
            exact ⟨opened, _, rfl, rfl, rfl⟩

/-- **A trade.** When `sync_wait` returns, either the account could not be opened, nothing else
was sent, and the status is `1`; or the payment, one market order and the closing of the account
that was opened were sent in this order, whatever became of the payment and the order, and the
status is `0`. -/
theorem run_trace {instrument : String} {s : State Request Response ℤ Empty}
    {ok : State Request Response ℤ Empty → Action Response → Prop}
    (h : Reachable (syncWait (run instrument)) ok s) {x : Except Empty ℤ}
    (hx : s.returned = some x) :
    (∃ (o : Outcome Response) (e : Error), o.result = .error e ∧ x = .ok 1 ∧
      s.trace = exchangeEvents (.openSandboxAccount, o)) ∨
    ∃ (o : Outcome Response) (opened : Response) (rest : List (Request × Outcome Response)),
      o.result = .ok opened ∧ x = .ok 0 ∧
      s.trace = exchangeEvents (.openSandboxAccount, o) ++ rest.flatMap exchangeEvents ∧
      rest.map Prod.fst = requests instrument opened.accountId := by
  rcases inv_of_reachable h with rfl | ⟨ctl, cfg, rank, log, cold, hi⟩
  · cases hx
  · obtain ⟨htrace, heval⟩ := hi.eval hx
    rcases eval_run heval with ⟨e, hx', hlog⟩ | ⟨opened, rest, hx', hlog, hrest⟩
    · rw [List.map_eq_singleton_iff] at hlog
      obtain ⟨a, rfl, ha⟩ := hlog
      obtain ⟨req, o⟩ := a
      simp only [exchangeAnswer, Prod.mk.injEq] at ha
      obtain ⟨rfl, ho⟩ := ha
      refine Or.inl ⟨o, e, ho, hx', ?_⟩
      simpa using htrace
    · rw [List.map_eq_cons_iff] at hlog
      obtain ⟨a, rest', rfl, ha, rfl⟩ := hlog
      obtain ⟨req, o⟩ := a
      simp only [exchangeAnswer, Prod.mk.injEq] at ha
      obtain ⟨rfl, ho⟩ := ha
      refine Or.inr ⟨o, opened, rest', ho, hx', ?_, ?_⟩
      · simpa using htrace
      · rw [← hrest, List.map_map]
        rfl

/-- A trade whose account cannot be opened. -/
theorem run_trace_denied :
    ∃ s : State Request Response ℤ Empty,
      Reachable (syncWait (run "share")) (fun _ _ => True) s ∧ s.returned = some (.ok 1) ∧
      ∃ o, s.trace = exchangeEvents (.openSandboxAccount, o) := by
  obtain ⟨s, hs, hp⟩ := exists_reachable_of_run (syncWait (run "share")) (fun _ _ => True)
    (fun s => decide (s.returned = some (.ok 1)))
    (List.replicate 3 (.run 0) ++ [.tryAcquire 0 false] ++ List.replicate 9 (.run 0))
    (by decide +kernel)
  rw [decide_eq_true_eq] at hp
  rcases run_trace hs hp with ⟨o, e, -, -, htrace⟩ | ⟨o, opened, rest, -, hfalse, -⟩
  · exact ⟨s, hs, hp, o, htrace⟩
  · cases hfalse

end CoroTrade
end TInvest
