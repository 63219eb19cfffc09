import TInvest.Error
import TInvest.Lib.Signed

/-!
# Blocking unary calls

`unary_sync` of `include/tinvest/detail/unary.hpp`, with the metadata readers and `make_error`
it uses, `RetryPolicy` and the fields of `Config` of `client.hpp`, `CallOptions`, and
`Client::setup_context`.

A call is modelled by what it does: the list of its effects (waiting for the rate limiter,
invoking the stub, sleeping) and its result. What the server answers is a parameter: the answer
to the `i`-th invocation of the stub, for every `i` from `1` on. Durations are milliseconds.

`std::atoi` has no defined result for a number that is not an `int`. Whatever it returns for such a
header comes with the answer, so nothing here depends on it.
-/

namespace TInvest

/-- Metadata in the order of the multimap. -/
abbrev Metadata := List (String × String)

/-- `RetryPolicy`. -/
structure RetryPolicy where
  maxAttempts : ℤ := 3
  onRateLimit : Bool := true
  onUnavailable : Bool := true
  maxWait : ℤ := 65000
deriving DecidableEq

/-- `Config`, as far as a call reads it. -/
structure Config where
  token : String
  appName : String := "tinvest-cpp"
  defaultTimeout : Option ℤ := none
  retry : RetryPolicy := {}

/-- `CallOptions`. -/
structure CallOptions where
  timeout : Option ℤ := none
  metadata : Metadata := []
  retry : Option Bool := none

/-- `grpc::ClientContext`: the request metadata, and the deadline as a span from now. -/
structure ClientContext where
  metadata : Metadata
  deadline : Option ℤ
deriving DecidableEq

/-- What a stub method leaves behind: its status, the trailing metadata of the context and the
response object. `overflow` is what `std::atoi` makes of a header whose number is not an `int`. -/
structure Answer (Resp : Type) where
  status : Status
  trailing : Metadata
  resp : Resp
  overflow : String → Int32 := fun _ => 0

/-- `Result<Resp>`. -/
abbrev Result (Resp : Type) := Except Error Resp

/-- `Client::setup_context`. -/
def setupContext (config : Config) (opts : CallOptions) : ClientContext where
  metadata := [("authorization", "Bearer " ++ config.token), ("x-app-name", config.appName)]
    ++ opts.metadata
  deadline := opts.timeout <|> config.defaultTimeout

namespace Detail

open Lib.Signed

/-! ## Errors -/

/-- `get_metadata`: empty when the key is absent. -/
def getMetadata (md : Metadata) (key : String) : String :=
  match md.find? fun entry => entry.1 == key with
  | some entry => entry.2
  | none => ""

/-- The characters `atoi` skips in front. -/
def isSpace (c : Char) : Bool :=
  c == ' ' || c == '\t' || c == '\n' || c == '\x0b' || c == '\x0c' || c == '\r'

/-- The number in front of a text: spaces, an optional sign, digits. -/
def leadingNumber (cs : List Char) : ℤ :=
  match cs.dropWhile isSpace with
  | '-' :: ds => -(Nat.ofDigitChars 10 (ds.takeWhile Char.isDigit) 0 : ℕ)
  | '+' :: ds => (Nat.ofDigitChars 10 (ds.takeWhile Char.isDigit) 0 : ℕ)
  | ds => (Nat.ofDigitChars 10 (ds.takeWhile Char.isDigit) 0 : ℕ)

/-- `std::atoi`. A number that is not an `int` leaves it undefined: then it returns `overflow`. -/
def atoi (overflow : Int32) (v : String) : Int32 :=
  let n := leadingNumber v.toList
  if Fits 32 n then Int32.ofInt n else overflow

/-- `get_int_metadata`: `-1` when the key is absent or its value is empty. -/
def getIntMetadata (overflow : String → Int32) (md : Metadata) (key : String) : ℤ :=
  let v := getMetadata md key
  if v.isEmpty then -1 else (atoi (overflow key) v).toInt

/-- `make_error`. -/
def makeError (overflow : String → Int32) (status : Status) (md : Metadata) : Error :=
  let sm := status.errorMessage
  let message := getMetadata md "message"
  let numeric := !sm.isEmpty && sm.toList.all Char.isDigit
  { code := status.errorCode
    trackingId := getMetadata md "x-tracking-id"
    message := if message.isEmpty then sm else message
    apiCode := if numeric then sm else ""
    ratelimit :=
      { limit := getIntMetadata overflow md "x-ratelimit-limit"
        remaining := getIntMetadata overflow md "x-ratelimit-remaining"
        resetSeconds := getIntMetadata overflow md "x-ratelimit-reset" } }

/-! ## The retry loop -/

/-- What a blocking call does. -/
inductive Effect where
  | acquire (method : String)
  | call (ctx : ClientContext)
  | sleep (delay : ℤ)
deriving DecidableEq

/-- `retryable`. -/
def retryable (rp : RetryPolicy) (opts : CallOptions) (err : Error) : Bool :=
  let retryable :=
    (err.code == .resourceExhausted && rp.onRateLimit) ||
      (err.code == .unavailable && rp.onUnavailable)
  match opts.retry with
  | some retry => retryable && retry
  | none => retryable

/-- `delay`: the reset of the rate limit and `200` ms, `attempt` seconds when it is not known,
else `100` ms doubled at most eight times. -/
def retryDelay (attempt : ℕ) (err : Error) : ℤ :=
  if err.code = .resourceExhausted then
    if 0 ≤ err.ratelimit.resetSeconds then err.ratelimit.resetSeconds * 1000 + 200
    else attempt * 1000
  else
    100 * 2 ^ min (attempt - 1) 8

/-- One pass of the loop after the call returned: the result, or the delay before the next. -/
def afterCall {Resp : Type} (rp : RetryPolicy) (opts : CallOptions) (attempt : ℕ)
    (answer : Answer Resp) : Result Resp ⊕ ℤ :=
  if answer.status.isOk then .inl (.ok answer.resp)
  else
    let err := makeError answer.overflow answer.status answer.trailing
    if !retryable rp opts err || max 1 rp.maxAttempts ≤ attempt then .inl (.error err)
    else
      let delay := retryDelay attempt err
      if rp.maxWait < delay then .inl (.error err) else .inr delay

/-- A retry leaves an attempt. -/
lemma attempt_lt_of_afterCall {Resp : Type} {rp : RetryPolicy} {opts : CallOptions} {attempt : ℕ}
    {answer : Answer Resp} {delay : ℤ} (h : afterCall rp opts attempt answer = .inr delay) :
    attempt < max 1 rp.maxAttempts := by
  simp only [afterCall] at h
  split at h
  · cases h
  · split at h
    · cases h
    · next hstop =>
      simp only [Bool.or_eq_true, decide_eq_true_eq, not_or, not_le] at hstop
      exact hstop.2

/-- The loop of `unary_sync`, from the given attempt on. -/
def unaryLoop {Resp : Type} (config : Config) (opts : CallOptions) (method : String)
    (call : ℕ → ClientContext → Answer Resp) (attempt : ℕ) : List Effect × Result Resp :=
  let ctx := setupContext config opts
  match _h : afterCall config.retry opts attempt (call attempt ctx) with
  | .inl result => ([.acquire method, .call ctx], result)
  | .inr delay =>
    let (effects, result) := unaryLoop config opts method call (attempt + 1)
    (.acquire method :: .call ctx :: .sleep delay :: effects, result)
termination_by (max 1 config.retry.maxAttempts - attempt).toNat
decreasing_by
  have hlt := attempt_lt_of_afterCall _h
  omega

/-- `unary_sync`; `call i` is the `i`-th invocation of `CallFn`. -/
def unarySync {Resp : Type} (config : Config) (opts : CallOptions) (method : String)
    (call : ℕ → ClientContext → Answer Resp) : List Effect × Result Resp :=
  unaryLoop config opts method call 1

end Detail
end TInvest
