import TInvest.Call.Unary
import TInvest.RateLimiter.Windows

/-!
# Non-blocking unary calls

`unary_async` of `include/tinvest/detail/unary.hpp`, beside the limiter it asks, as a transition
system. A call is one section for `try_acquire`; then either its callback with the local error, or
a `State` on the heap and the stub. gRPC completes a started call once, on a thread of its own:
the callback runs there, and `delete st` after it. Other threads use the limiter at any time.

The number of a call stands for its `State`, for its callback and for the thread that completes it.
The trace records what happens to the calls.
-/

namespace TInvest
namespace Detail

open Lib.Transition

/-- The local error of a call that the limiter turns away. -/
def limitExceeded : Error where
  code := .resourceExhausted
  message := "client-side rate limit exceeded"
  apiCode := "client"

/-- What the completion of a started call gives to the callback. -/
def completion {Resp : Type} (answer : Answer Resp) : Result Resp :=
  if answer.status.isOk then .ok answer.resp
  else .error (makeError answer.overflow answer.status answer.trailing)

end Detail

namespace UnaryAsync

open Lib.Transition
open Detail

/-- Where a call stands. -/
inductive Point (Resp : Type) where
  /-- `try_acquire` has returned. -/
  | asked (admitted : Bool)
  | refused
  /-- The stub has the call. -/
  | inFlight
  /-- The callback was called, `delete st` is next. -/
  | delivered (answer : Answer Resp)
  | freed (answer : Answer Resp)

/-- The arguments of `unary_async`, and the reading of the clock in `try_acquire`. -/
structure Call (Req Resp : Type) where
  opts : CallOptions
  method : String
  req : Req
  now : ℤ
  point : Point Resp

/-- What happens to a call. -/
inductive Event (Req Resp : Type) where
  | asked (id : ℕ) (admitted : Bool)
  | started (id : ℕ) (ctx : ClientContext) (req : Req)
  | callback (id : ℕ) (result : Result Resp)
  | freed (id : ℕ)
deriving DecidableEq

/-- The call of an event. -/
def Event.id {Req Resp : Type} : Event Req Resp → ℕ
  | .asked id _ => id
  | .started id _ _ => id
  | .callback id _ => id
  | .freed id => id

/-- The limiter and the calls made so far. -/
structure State (Req Resp : Type) where
  limiter : RateLimiter.State := {}
  calls : ℕ → Option (Call Req Resp) := fun _ => none
  nextCall : ℕ := 0
  trace : List (Event Req Resp) := []

/-- The sections of the threads. -/
inductive Action (Req Resp : Type) where
  /-- Another thread uses the limiter. -/
  | limiter (a : RateLimiter.Action)
  /-- `unary_async` up to the return of `try_acquire`. -/
  | unaryAsync (opts : CallOptions) (method : String) (req : Req) (now : ℤ)
  /-- The rest of `unary_async`. -/
  | proceed (id : ℕ)
  /-- gRPC completes a started call. -/
  | complete (id : ℕ) (answer : Answer Resp)
  /-- `delete st`. -/
  | delete (id : ℕ)

section
variable {Req Resp : Type}

/-- The value that `try_acquire` returns. -/
def tryAcquired (W : ℤ) (method : String) (now : ℤ) (s : RateLimiter.State) : Bool :=
  (RateLimiter.check W s method s.byMethod[method]? now).2 != .full

/-- The call moves on, and the event is recorded. -/
def State.advance (s : State Req Resp) (id : ℕ) (call : Call Req Resp) (point : Point Resp)
    (e : Event Req Resp) : State Req Resp :=
  { s with
    calls := Function.update s.calls id (some { call with point := point })
    trace := s.trace ++ [e] }

/-- `unary_async` up to the return of `try_acquire`. -/
def unaryAsync (W : ℤ) (opts : CallOptions) (method : String) (req : Req) (now : ℤ)
    (s : State Req Resp) : State Req Resp :=
  let admitted := tryAcquired W method now s.limiter
  let call : Call Req Resp := ⟨opts, method, req, now, .asked admitted⟩
  { limiter := RateLimiter.tryAcquire W method now s.limiter
    calls := Function.update s.calls s.nextCall (some call)
    nextCall := s.nextCall + 1
    trace := s.trace ++ [.asked s.nextCall admitted] }

/-- The rest of `unary_async`: the callback with the local error, or the stub. -/
def proceed (config : Config) (id : ℕ) (s : State Req Resp) : Option (State Req Resp) :=
  match s.calls id with
  | none => none
  | some call =>
    match call.point with
    | .asked false => some (s.advance id call .refused (.callback id (.error limitExceeded)))
    | .asked true =>
      some (s.advance id call .inFlight
        (.started id (setupContext config call.opts) call.req))
    | _ => none

/-- The completion up to the return of the callback. -/
def complete (id : ℕ) (answer : Answer Resp) (s : State Req Resp) : Option (State Req Resp) :=
  match s.calls id with
  | none => none
  | some call =>
    match call.point with
    | .inFlight => some (s.advance id call (.delivered answer) (.callback id (completion answer)))
    | _ => none

/-- `delete st`. -/
def delete (id : ℕ) (s : State Req Resp) : Option (State Req Resp) :=
  match s.calls id with
  | none => none
  | some call =>
    match call.point with
    | .delivered answer => some (s.advance id call (.freed answer) (.freed id))
    | _ => none

/-- One section. -/
def step (config : Config) (W : ℤ) (s : State Req Resp) :
    Action Req Resp → Option (State Req Resp)
  | .limiter a => (RateLimiter.step W s.limiter a).map fun l => { s with limiter := l }
  | .unaryAsync opts method req now => some (unaryAsync W opts method req now s)
  | .proceed id => proceed config id s
  | .complete id answer => complete id answer s
  | .delete id => delete id s

/-- A client without calls. -/
def client (config : Config) (W : ℤ) : System (State Req Resp) (Action Req Resp) :=
  ⟨{}, step config W⟩

end

end UnaryAsync
end TInvest
