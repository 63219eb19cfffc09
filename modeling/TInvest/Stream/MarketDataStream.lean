import TInvest.Stream.Registry
import TInvest.Stream.Threads

/-!
# The bidirectional market-data stream

`MarketDataStream` of `src/market_data_stream.cpp` as a transition system. An action is one
critical section of `mu_`, one call of user code, or one call into or from gRPC; any
interleaving of them is a run. The state holds the fields of the class, the threads, what
gRPC knows of each reactor, and the trace of what happened so far.

A connection is numbered by the call of `run_once()` that made it, and its number stands for
its context and its reactor alike. gRPC delivers callbacks of a reactor between `StartCall`
and `OnDone`, its read callbacks one at a time, and `OnDone` when its holds are removed and
none of its callbacks is running. A callback is delivered together with its first critical
section: until then it has done nothing.
-/

namespace TInvest
namespace MarketDataStream

open Pb

/-! ## Dispatch -/

/-- The members of `MarketDataHandlers`. -/
inductive Handler where
  | onCandle
  | onTrade
  | onOrderBook
  | onLastPrice
  | onTradingStatus
  | onOpenInterest
  | onSubscriptionResult
  | onRaw
deriving DecidableEq

/-- `MarketDataHandlers`: which handlers are set. -/
abbrev MarketDataHandlers := Handler → Bool

/-- A call of a data handler. -/
structure Call where
  handler : Handler
  response : MarketDataResponse
deriving DecidableEq

/-- `if (h.on_x) h.on_x(r)`. -/
def MarketDataHandlers.call (h : MarketDataHandlers) (handler : Handler)
    (r : MarketDataResponse) : List Call :=
  if h handler then [⟨handler, r⟩] else []

/-- `dispatch`: the handlers it calls, in order. -/
def dispatch (h : MarketDataHandlers) (r : MarketDataResponse) : List Call :=
  h.call .onRaw r ++
    match r with
    | .candle => h.call .onCandle r
    | .trade => h.call .onTrade r
    | .orderbook => h.call .onOrderBook r
    | .lastPrice => h.call .onLastPrice r
    | .tradingStatus => h.call .onTradingStatus r
    | .openInterest => h.call .onOpenInterest r
    | .subscribeCandlesResponse | .subscribeOrderBookResponse | .subscribeTradesResponse
    | .subscribeInfoResponse | .subscribeLastPriceResponse => h.call .onSubscriptionResult r
    | .ping | .notSet => []

/-- What a stream is constructed with. -/
structure Config where
  handlers : MarketDataHandlers
  opts : StreamOptions := {}

/-! ## State -/

/-- Where a worker is in `run_once()`. -/
inductive Once where
  /-- before the critical section that fills the queue -/
  | fill
  /-- before the call is bound and `Begin()` -/
  | startCall (c : ℕ)
  /-- before the critical section that publishes the reactor -/
  | publish (c : ℕ)
  /-- before the wait for `done_` returns -/
  | waiting (c : ℕ)
deriving DecidableEq

/-- An element of `write_queue_`. Whether it was replayed or sent with `remember` is not in
the queue of the source; it is kept to tell these requests from the others. -/
structure Outgoing where
  request : MarketDataRequest
  remembered : Bool
deriving DecidableEq

/-- The read side of a reactor. -/
inductive Reading where
  | idle
  /-- `StartRead` is outstanding -/
  | pending
  /-- in `handle_response`, before `notify(connected)` -/
  | connected (r : MarketDataResponse)
  /-- in `dispatch`, with these calls to make before the next `StartRead` -/
  | dispatching (calls : List Call)
deriving DecidableEq

/-- What gRPC knows of a reactor. `writes` counts the calls of `StartWrite` that are
outstanding. -/
structure Reactor where
  started : Bool := false
  holds : ℕ := 0
  reading : Reading := .idle
  writes : ℕ := 0
  finished : Bool := false

/-- The threads that call `RemoveHold` after a critical section. -/
inductive Caller where
  | stop (t : ℕ)
  | worker (w : ℕ)
  | read (c : ℕ)
  | write (c : ℕ)
deriving DecidableEq

/-- What happened. -/
inductive Event where
  | session (e : SessionEvent Call)
  | sent (o : Outgoing) (accepted : Bool)
  | filled (c : ℕ) (snapshot : List MarketDataRequest)
  | published (c : ℕ)
  | tryCancel (c : ℕ)
  | startCall (c : ℕ)
  | startWrite (c : ℕ) (o : Outgoing)
  /-- `hold_released_` is set for the reactor -/
  | holdReleased (c : ℕ)
  | removeHold (c : ℕ)
  | done (c : ℕ)
deriving DecidableEq

structure State where
  threads : Threads Once := {}
  stopping : Bool := false
  done : Bool := false
  gotData : Bool := false
  broken : Bool := false
  holdReleased : Bool := false
  status : Status := {}
  ctx : Option ℕ := none
  reactor : Option ℕ := none
  writeQueue : List Outgoing := []
  writeInFlight : Bool := false
  subscriptions : Registry := ∅
  /-- the calls of `RemoveHold` that were decided in a critical section and not yet made -/
  releases : List (Caller × ℕ) := []
  reactors : ℕ → Reactor := fun _ => {}
  nextConn : ℕ := 0
  trace : List Event := []

namespace State

def emit (s : State) (e : Event) : State := { s with trace := s.trace ++ [e] }

def setReactor (s : State) (c : ℕ) (r : Reactor) : State :=
  { s with reactors := Function.update s.reactors c r }

def setPc (s : State) (w : ℕ) (pc : Pc Once) : State :=
  { s with threads := s.threads.setWorker w { s.threads.workers w with pc := pc } }

/-- The thread has no `RemoveHold` left to make. -/
def ReleasedBy (s : State) (caller : Caller) : Prop := ∀ r ∈ s.releases, r.1 ≠ caller

instance (s : State) (caller : Caller) : Decidable (s.ReleasedBy caller) :=
  inferInstanceAs (Decidable (∀ r ∈ s.releases, r.1 ≠ caller))

/-- gRPC may deliver a callback of the reactor. -/
def Active (s : State) (c : ℕ) : Prop :=
  (s.reactors c).started = true ∧ (s.reactors c).finished = false

instance (s : State) (c : ℕ) : Decidable (s.Active c) := inferInstanceAs (Decidable (_ ∧ _))

/-! ## Critical sections -/

/-- `if (reactor_ && !hold_released_) { hold_released_ = true; release = reactor_; }`, and
`release->RemoveHold()` is left to the caller. -/
def releaseLocked (s : State) (caller : Caller) : State :=
  match s.reactor with
  | some c =>
    if s.holdReleased then s
    else
      { s with holdReleased := true, releases := (caller, c) :: s.releases }.emit
        (.holdReleased c)
  | none => s

/-- `maybe_write_locked`, with `WriteNext`. -/
def maybeWriteLocked (s : State) : State :=
  match s.reactor, s.writeQueue with
  | some c, next :: rest =>
    if s.broken || s.holdReleased || s.writeInFlight then s
    else
      ({ s with writeInFlight := true, writeQueue := rest }.setReactor c
        { s.reactors c with writes := (s.reactors c).writes + 1 }).emit (.startWrite c next)
  | _, _ => s

/-- `start`. -/
def start (s : State) : State :=
  if s.threads.worker.isSome then s
  else
    { s with stopping := false, threads := s.threads.launch }.emit
      (.session (.launched s.threads.nextWorker))

/-- The critical section of a `stop` by thread `t`. -/
def stop (s : State) (t : ℕ) : State :=
  let s := { s with stopping := true, broken := true }.releaseLocked (.stop t)
  let s := match s.ctx with
    | some c => s.emit (.tryCancel c)
    | none => s
  { s with threads := s.threads.take t }

/-- `send`. -/
def send (s : State) (o : Outgoing) : State :=
  if s.stopping then s.emit (.sent o false)
  else
    let s := if o.remembered then
        { s with subscriptions := recordRequest s.subscriptions o.request }
      else s
    let s := s.emit (.sent o true)
    if s.reactor.isSome && !s.broken && !s.holdReleased then
      { s with writeQueue := s.writeQueue ++ [o] }.maybeWriteLocked
    else s

/-- `handle_read_closed`. -/
def handleReadClosed (s : State) (caller : Caller) : State :=
  { s with broken := true }.releaseLocked caller

/-- `handle_write_done`. -/
def handleWriteDone (s : State) (c : ℕ) (ok : Bool) : State :=
  if ok then { s with writeInFlight := false }.maybeWriteLocked
  else s.handleReadClosed (.write c)

/-- The critical section of `handle_response`. -/
def handleResponse (cfg : Config) (s : State) (c : ℕ) (r : MarketDataResponse) : State :=
  if s.gotData then
    s.setReactor c { s.reactors c with reading := .dispatching (dispatch cfg.handlers r) }
  else
    { s with gotData := true }.setReactor c { s.reactors c with reading := .connected r }

/-- `handle_done`. -/
def handleDone (s : State) (status : Status) : State :=
  { s with reactor := none, status := status, done := true }

/-! ## Worker steps -/

/-- The first critical section of `run_once`. -/
def fill (s : State) (w : ℕ) : State :=
  if s.stopping then s.setPc w (.returned .cancelled)
  else
    let c := s.nextConn
    let snapshot := replay s.subscriptions
    ({ s with
        ctx := some c
        done := false
        broken := false
        holdReleased := false
        gotData := false
        writeInFlight := false
        writeQueue := snapshot.map fun r => ⟨r, true⟩
        nextConn := c + 1 }.setPc w (.once (.startCall c))).emit (.filled c snapshot)

/-- The call is bound, and `Begin()`: `AddHold`, `StartRead`, `StartCall`. -/
def startCall (s : State) (w c : ℕ) : State :=
  ((s.setReactor c { s.reactors c with started := true, holds := 1, reading := .pending }).setPc w
    (.once (.publish c))).emit (.startCall c)

/-- The second critical section of `run_once`. -/
def publish (s : State) (w c : ℕ) : State :=
  let s := s.setPc w (.once (.waiting c))
  if s.done then s
  else
    let s := { s with reactor := some c }.emit (.published c)
    if (s.stopping || s.broken) && !s.holdReleased then s.releaseLocked (.worker w)
    else s.maybeWriteLocked

/-- The wait for `done_` is over. -/
def finishOnce (s : State) (w : ℕ) : State :=
  { s with ctx := none }.setPc w (.returned s.status)

/-- A step of worker `w`. -/
def workerStep (cfg : Config) (s : State) (w : ℕ) : Option State :=
  match (s.threads.workers w).pc with
  | .once .fill => some (s.fill w)
  | .once (.startCall c) => some (s.startCall w c)
  | .once (.publish c) => some (s.publish w c)
  | .once (.waiting _) =>
    if s.done ∧ s.ReleasedBy (.worker w) then some (s.finishOnce w) else none
  | _ =>
    ((s.threads.workers w).step cfg.opts .fill w s.stopping s.gotData).map fun next =>
      { s with
        threads := s.threads.setWorker w next.1
        trace := s.trace ++ next.2.map .session }

/-! ## Callback steps -/

/-- `OnReadDone`, up to the end of its critical section; no response is `ok == false`. -/
def onReadDone (cfg : Config) (s : State) (c : ℕ) (response : Option MarketDataResponse) :
    Option State :=
  if s.Active c ∧ (s.reactors c).reading = .pending then
    match response with
    | some r => some (s.handleResponse cfg c r)
    | none =>
      some ((s.setReactor c { s.reactors c with reading := .idle }).handleReadClosed (.read c))
  else none

/-- The rest of `OnReadDone`: `notify(connected)`, the data handlers, `StartRead`. -/
def readStep (cfg : Config) (s : State) (c : ℕ) : Option State :=
  if s.Active c then
    match (s.reactors c).reading with
    | .connected r =>
      some ((s.setReactor c
        { s.reactors c with reading := .dispatching (dispatch cfg.handlers r) }).emit
          (.session (.notified (.reactor c) .connected none)))
    | .dispatching (call :: calls) =>
      some ((s.setReactor c { s.reactors c with reading := .dispatching calls }).emit
        (.session (.handled c call)))
    | .dispatching [] => some (s.setReactor c { s.reactors c with reading := .pending })
    | .idle | .pending => none
  else none

/-- `OnWriteDone`. -/
def onWriteDone (s : State) (c : ℕ) (ok : Bool) : Option State :=
  if s.Active c ∧ 0 < (s.reactors c).writes then
    some ((s.setReactor c { s.reactors c with writes := (s.reactors c).writes - 1 }).handleWriteDone
      c ok)
  else none

/-- `OnDone`: the holds are removed and no callback is running. An operation that is still
outstanding then never completes. -/
def onDone (s : State) (c : ℕ) (status : Status) : Option State :=
  if s.Active c ∧ (s.reactors c).holds = 0 ∧
      ((s.reactors c).reading = .idle ∨ (s.reactors c).reading = .pending) ∧
      s.ReleasedBy (.read c) ∧ s.ReleasedBy (.write c) then
    some (((s.setReactor c { s.reactors c with finished := true }).handleDone status).emit
      (.done c))
  else none

/-- `RemoveHold`, by the thread that decided it. -/
def removeHold (s : State) (caller : Caller) (c : ℕ) : Option State :=
  if (caller, c) ∈ s.releases then
    some (({ s with releases := s.releases.erase (caller, c) }.setReactor c
      { s.reactors c with holds := (s.reactors c).holds - 1 }).emit (.removeHold c))
  else none

/-- The `stop` of thread `t` has joined its worker and returns. -/
def returnStop (s : State) (t : ℕ) (target : Option ℕ) : Option State :=
  if (t, target) ∈ s.threads.stops ∧ s.ReleasedBy (.stop t) ∧
      (∀ w ∈ target, (s.threads.workers w).pc = .ended) then
    some ({ s with threads := s.threads.drop t target }.emit (.session .stopReturned))
  else none

end State

/-! ## The system -/

inductive Action where
  | start
  | stop (t : ℕ)
  | returnStop (t : ℕ) (target : Option ℕ)
  | send (request : MarketDataRequest) (remember : Bool)
  | worker (w : ℕ)
  | onReadDone (c : ℕ) (response : Option MarketDataResponse)
  | readStep (c : ℕ)
  | onWriteDone (c : ℕ) (ok : Bool)
  | onDone (c : ℕ) (status : Status)
  | removeHold (caller : Caller) (c : ℕ)

/-- One step. A thread makes one call of `stop` at a time. -/
def step (cfg : Config) (s : State) : Action → Option State
  | .start => some s.start
  | .stop t => if ∀ p ∈ s.threads.stops, p.1 ≠ t then some (s.stop t) else none
  | .returnStop t target => s.returnStop t target
  | .send request remember => some (s.send ⟨request, remember⟩)
  | .worker w => s.workerStep cfg w
  | .onReadDone c response => s.onReadDone cfg c response
  | .readStep c => s.readStep cfg c
  | .onWriteDone c ok => s.onWriteDone c ok
  | .onDone c status => s.onDone c status
  | .removeHold caller c => s.removeHold caller c

/-- The stream, from its construction on. -/
def system (cfg : Config) : Lib.Transition.System State Action where
  init := {}
  step := step cfg

/-- Any interleaving. -/
def AnyOrder (_ : State) (_ : Action) : Prop := True

/-- `start()` launches no worker beside one that a `stop()` in progress is still joining. -/
def LaunchSafe (s : State) (a : Action) : Prop :=
  match a with
  | .start => s.threads.LaunchSafe
  | _ => True

/-- `start()` is not called while a `stop()` is in progress. -/
def NonOverlap (s : State) (a : Action) : Prop :=
  match a with
  | .start => s.threads.stops = []
  | _ => True

/-- Neither `start()` nor `stop()` is called while a `stop()` is in progress. -/
def Sequential (s : State) (a : Action) : Prop :=
  match a with
  | .start | .stop _ => s.threads.stops = []
  | _ => True

instance (s : State) (a : Action) : Decidable (AnyOrder s a) := inferInstanceAs (Decidable True)

instance (s : State) (a : Action) : Decidable (NonOverlap s a) :=
  match a with
  | .start => inferInstanceAs (Decidable (_ = _))
  | .stop _ | .returnStop .. | .send .. | .worker _ | .onReadDone .. | .readStep _
  | .onWriteDone .. | .onDone .. | .removeHold .. => inferInstanceAs (Decidable True)

instance (s : State) (a : Action) : Decidable (Sequential s a) :=
  match a with
  | .start | .stop _ => inferInstanceAs (Decidable (_ = _))
  | .returnStop .. | .send .. | .worker _ | .onReadDone .. | .readStep _
  | .onWriteDone .. | .onDone .. | .removeHold .. => inferInstanceAs (Decidable True)

end MarketDataStream
end TInvest
