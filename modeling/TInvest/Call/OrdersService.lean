import TInvest.Call.UnaryTheorems

/-!
# Submitting orders

The blocking overload that `TINVEST_RPC` declares for every method of every service, and the two
methods of `OrdersService` that submit an order. The requests and responses are protobuf records
that a call hands through, so their types are parameters.

The headers of the services and of the client say that every blocking call is retried as
`Config::retry` says, and the macro gives every method the same loop; the architecture notes leave
the trading methods out by default. `orders_submitted_once_iff` says when an order is submitted
once.
-/

namespace TInvest

open Detail

section

variable {Req Resp : Type}

/-- The blocking overload of `TINVEST_RPC`; `stub i` is the `i`-th invocation of the method. -/
def rpc (serviceFullName method : String) (config : Config)
    (stub : ℕ → ClientContext → Req → Answer Resp) (req : Req) (opts : CallOptions := {}) :
    List Effect × Result Resp :=
  let kMethod := serviceFullName ++ "/" ++ method
  unarySync config opts kMethod fun i ctx => stub i ctx req

end

namespace OrdersService

def kServiceFullName : String := "tinkoff.public.invest.api.contract.v1.OrdersService"

section

variable {PostOrderRequest PostOrderResponse : Type}

/-- `post_order`. -/
def postOrder (config : Config)
    (stub : ℕ → ClientContext → PostOrderRequest → Answer PostOrderResponse)
    (req : PostOrderRequest) (opts : CallOptions := {}) : List Effect × Result PostOrderResponse :=
  rpc kServiceFullName "PostOrder" config stub req opts

end

section

variable {PostOrderAsyncRequest PostOrderAsyncResponse : Type}

/-- `post_order_async`, in its blocking overload. -/
def postOrderAsync (config : Config)
    (stub : ℕ → ClientContext → PostOrderAsyncRequest → Answer PostOrderAsyncResponse)
    (req : PostOrderAsyncRequest) (opts : CallOptions := {}) :
    List Effect × Result PostOrderAsyncResponse :=
  rpc kServiceFullName "PostOrderAsync" config stub req opts

end

end OrdersService

/-! ## One submission -/

variable {Req Resp : Type}

/-- The first answer ends a call without an option of its own: it is OK, the policy does not retry
its status, the policy allows one attempt, or the wait it asks for is too long. -/
def FirstAnswerEnds (rp : RetryPolicy) (first : Answer Resp) : Prop :=
  first.status.isOk = true ∨
    ¬ (first.status.errorCode = .resourceExhausted ∧ rp.onRateLimit = true ∨
      first.status.errorCode = .unavailable ∧ rp.onUnavailable = true) ∨
    rp.maxAttempts ≤ 1 ∨ rp.maxWait < retryDelay 1 first.error

instance (rp : RetryPolicy) (first : Answer Resp) : Decidable (FirstAnswerEnds rp first) :=
  inferInstanceAs (Decidable (_ ∨ _))

lemma stops_one_iff {rp : RetryPolicy} {opts : CallOptions} (hretry : opts.retry = none)
    (first : Answer Resp) : Stops rp opts 1 first ↔ FirstAnswerEnds rp first := by
  have hlast : ((1 : ℕ) : ℤ) = max 1 rp.maxAttempts ↔ rp.maxAttempts ≤ 1 := by
    rw [Nat.cast_one]
    omega
  have hnone : opts.retry ≠ some false := by
    rw [hretry]
    simp
  rw [Stops, FirstAnswerEnds, hlast, Retryable, and_iff_left hnone]
  rfl

/-- A method is invoked once exactly when the first answer stops the loop. -/
lemma calls_rpc_eq_one_iff (serviceFullName method : String) (config : Config)
    (stub : ℕ → ClientContext → Req → Answer Resp) (req : Req) {opts : CallOptions}
    (hretry : opts.retry = none) :
    calls (rpc serviceFullName method config stub req opts).1 = 1 ↔
      FirstAnswerEnds config.retry (stub 1 (setupContext config opts) req) := by
  obtain ⟨n, hone, -, hstop, hbefore, hloop⟩ := unaryLoop_spec config opts
    (serviceFullName ++ "/" ++ method) (fun i ctx => stub i ctx req) 1
    (le_max_left 1 config.retry.maxAttempts)
  have hcalls := calls_passes config opts (serviceFullName ++ "/" ++ method)
    (fun i ctx => stub i ctx req) (List.range' 1 (n - 1))
  rw [List.length_range'] at hcalls
  rw [rpc, unarySync, hloop, hcalls, ← stops_one_iff hretry]
  constructor
  · intro h
    have hn : n = 1 := by omega
    rw [hn] at hstop
    exact hstop
  · intro h
    by_contra hne
    exact hbefore 1 le_rfl (by omega) h

/-- **Orders are submitted once** by a call without a retry option exactly when the first answer
ends it; the policy of the client decides about every other one. -/
theorem orders_submitted_once_iff {PostOrderRequest PostOrderResponse : Type}
    {PostOrderAsyncRequest PostOrderAsyncResponse : Type} (config : Config) (opts : CallOptions)
    (hretry : opts.retry = none)
    (stub : ℕ → ClientContext → PostOrderRequest → Answer PostOrderResponse)
    (stubAsync : ℕ → ClientContext → PostOrderAsyncRequest → Answer PostOrderAsyncResponse)
    (req : PostOrderRequest) (reqAsync : PostOrderAsyncRequest) :
    (calls (OrdersService.postOrder config stub req opts).1 = 1 ↔
        FirstAnswerEnds config.retry (stub 1 (setupContext config opts) req)) ∧
      (calls (OrdersService.postOrderAsync config stubAsync reqAsync opts).1 = 1 ↔
        FirstAnswerEnds config.retry (stubAsync 1 (setupContext config opts) reqAsync)) :=
  ⟨calls_rpc_eq_one_iff _ _ config stub req hretry,
    calls_rpc_eq_one_iff _ _ config stubAsync reqAsync hretry⟩

/-- A stub that fails the first invocation with the given status. -/
def failsOnce (code : StatusCode) (i : ℕ) (_ : ClientContext) (_ : Unit) : Answer Unit where
  status := if i = 1 then { errorCode := code } else {}
  trailing := []
  resp := ()

/-- With one attempt a failed order is not submitted again. -/
theorem orders_submitted_once_single_attempt :
    calls (OrdersService.postOrder { token := "t", retry := { maxAttempts := 1 } }
        (failsOnce .unavailable) ()).1 = 1 ∧
      calls (OrdersService.postOrderAsync { token := "t", retry := { maxAttempts := 1 } }
        (failsOnce .unavailable) ()).1 = 1 := by
  have h := orders_submitted_once_iff { token := "t", retry := { maxAttempts := 1 } } {} rfl
    (failsOnce .unavailable) (failsOnce .unavailable) () ()
  exact ⟨h.1.mpr (by decide), h.2.mpr (by decide)⟩

/-- With the default policy an order that was answered `UNAVAILABLE` is submitted again after
`100` ms. -/
theorem order_resubmitted :
    (OrdersService.postOrder { token := "t" } (failsOnce .unavailable) ()).1 =
        [.acquire "tinkoff.public.invest.api.contract.v1.OrdersService/PostOrder",
          .call (setupContext { token := "t" } {}), .sleep 100,
          .acquire "tinkoff.public.invest.api.contract.v1.OrdersService/PostOrder",
          .call (setupContext { token := "t" } {})] ∧
      ¬ ∀ (config : Config) (opts : CallOptions) (stub : ℕ → ClientContext → Unit → Answer Unit),
        opts.retry = none → calls (OrdersService.postOrder config stub () opts).1 = 1 := by
  have htwice : (OrdersService.postOrder { token := "t" } (failsOnce .unavailable) ()).1 =
      [.acquire "tinkoff.public.invest.api.contract.v1.OrdersService/PostOrder",
        .call (setupContext { token := "t" } {}), .sleep 100,
        .acquire "tinkoff.public.invest.api.contract.v1.OrdersService/PostOrder",
        .call (setupContext { token := "t" } {})] := by
    rw [OrdersService.postOrder, rpc, unarySync, unaryLoop, unaryLoop]
    rfl
  refine ⟨htwice, fun h => ?_⟩
  have hone := h { token := "t" } {} (failsOnce .unavailable) rfl
  rw [htwice] at hone
  exact absurd hone (by decide)

end TInvest
