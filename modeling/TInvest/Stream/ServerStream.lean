import TInvest.Stream.Threads

/-!
# Server-side streams

`ServerStream<Req, Resp>` of `include/tinvest/streams/server_stream.hpp` as a transition
system, in the manner of the market-data stream: an action is one critical section, one
access to the atomic `got_data_`, one call of user code, or one call into or from gRPC. The
request is sent by `StartFn` and read by nothing else here, so it does not appear.

gRPC delivers the read callbacks of a reactor one at a time between `StartCall` and `OnDone`,
and `OnDone` when none of them is running.
-/

namespace TInvest
namespace ServerStream

variable {Resp : Type}

/-- What a stream is constructed with: the ping filter, if one is set, whether `on_data_` is
set, and the options. -/
structure Config (Resp : Type) where
  isPing : Option (Resp → Bool) := none
  onData : Bool := true
  opts : StreamOptions := {}

/-- Where a worker is from `got_data_ = false` to the end of `run_once()`. -/
inductive Once where
  /-- before `got_data_ = false` -/
  | reset
  /-- before the first critical section of `run_once()` -/
  | enter
  /-- before the call is bound and `Begin()` -/
  | startCall (c : ℕ)
  /-- before the wait for `done_` returns -/
  | waiting (c : ℕ)
deriving DecidableEq

/-- The read side of a reactor. -/
inductive Reading (Resp : Type) where
  | idle
  /-- `StartRead` is outstanding -/
  | pending
  /-- in `handle_data`, having read `got_data_` as unset -/
  | unset (r : Resp)
  /-- before `notify(connected)` -/
  | connected (r : Resp)
  /-- before the ping filter and `on_data_` -/
  | data (r : Resp)
  /-- before the next `StartRead` -/
  | restart

/-- What gRPC knows of a call and its reactor. -/
structure Reactor (Resp : Type) where
  started : Bool := false
  cancelled : Bool := false
  reading : Reading Resp := .idle
  finished : Bool := false

structure State (Resp : Type) where
  threads : Threads Once := {}
  stopping : Bool := false
  done : Bool := false
  gotData : Bool := false
  status : Status := {}
  ctx : Option ℕ := none
  reactors : ℕ → Reactor Resp := fun _ => {}
  nextConn : ℕ := 0
  trace : List (SessionEvent Resp) := []

namespace State

def setReactor (s : State Resp) (c : ℕ) (r : Reactor Resp) : State Resp :=
  { s with reactors := Function.update s.reactors c r }

def setReading (s : State Resp) (c : ℕ) (reading : Reading Resp) : State Resp :=
  s.setReactor c { s.reactors c with reading := reading }

def setPc (s : State Resp) (w : ℕ) (pc : Pc Once) : State Resp :=
  { s with threads := s.threads.setWorker w { s.threads.workers w with pc := pc } }

/-- gRPC may deliver a callback of the reactor. -/
def Active (s : State Resp) (c : ℕ) : Prop :=
  (s.reactors c).started = true ∧ (s.reactors c).finished = false

instance (s : State Resp) (c : ℕ) : Decidable (s.Active c) :=
  inferInstanceAs (Decidable (_ ∧ _))

/-- `start`. -/
def start (s : State Resp) : State Resp :=
  if s.threads.worker.isSome then s
  else
    { s with
      stopping := false
      threads := s.threads.launch
      trace := s.trace ++ [.launched s.threads.nextWorker] }

/-- The critical section of a `stop` by thread `t`. -/
def stop (s : State Resp) (t : ℕ) : State Resp :=
  let s := { s with stopping := true, threads := s.threads.take t }
  match s.ctx with
  | some c => s.setReactor c { s.reactors c with cancelled := true }
  | none => s

/-- The first critical section of `run_once`. -/
def enter (s : State Resp) (w : ℕ) : State Resp :=
  if s.stopping then s.setPc w (.returned .cancelled)
  else
    { s with ctx := some s.nextConn, done := false, nextConn := s.nextConn + 1 }.setPc w
      (.once (.startCall s.nextConn))

/-- `start_fn_`, and `Begin()`: `StartRead`, `StartCall`. -/
def startCall (s : State Resp) (w c : ℕ) : State Resp :=
  (s.setReactor c { s.reactors c with started := true, reading := .pending }).setPc w
    (.once (.waiting c))

/-- The wait for `done_` is over. -/
def finishOnce (s : State Resp) (w : ℕ) : State Resp :=
  { s with ctx := none }.setPc w (.returned s.status)

/-- A step of worker `w`. -/
def workerStep (cfg : Config Resp) (s : State Resp) (w : ℕ) : Option (State Resp) :=
  match (s.threads.workers w).pc with
  | .once .reset => some ({ s with gotData := false }.setPc w (.once .enter))
  | .once .enter => some (s.enter w)
  | .once (.startCall c) => some (s.startCall w c)
  | .once (.waiting _) => if s.done then some (s.finishOnce w) else none
  | _ =>
    ((s.threads.workers w).step cfg.opts .reset w s.stopping s.gotData).map fun next =>
      { s with threads := s.threads.setWorker w next.1, trace := s.trace ++ next.2 }

/-- `OnReadDone`, up to the first access of `handle_data`; no response is `ok == false`. -/
def onReadDone (s : State Resp) (c : ℕ) (response : Option Resp) : Option (State Resp) :=
  match (s.reactors c).reading with
  | .pending =>
    if s.Active c then
      match response with
      | some r => some (s.setReading c (if s.gotData then .data r else .unset r))
      | none => some (s.setReading c .idle)
    else none
  | _ => none

/-- `if (is_ping_ && is_ping_(resp)) return; if (on_data_) on_data_(resp);`: the calls it
makes. -/
def dataCalls (cfg : Config Resp) (c : ℕ) (r : Resp) : List (SessionEvent Resp) :=
  if cfg.isPing.any (· r) then []
  else if cfg.onData then [.handled c r]
  else []

/-- The rest of `OnReadDone`. -/
def readStep (cfg : Config Resp) (s : State Resp) (c : ℕ) : Option (State Resp) :=
  if s.Active c then
    match (s.reactors c).reading with
    | .unset r => some ({ s with gotData := true }.setReading c (.connected r))
    | .connected r =>
      some { s.setReading c (.data r) with
        trace := s.trace ++ [.notified (.reactor c) .connected none] }
    | .data r =>
      some { s.setReading c .restart with trace := s.trace ++ dataCalls cfg c r }
    | .restart => some (s.setReading c .pending)
    | .idle | .pending => none
  else none

/-- `OnDone`, with `handle_done`. A read that is still outstanding then never completes. -/
def onDone (s : State Resp) (c : ℕ) (status : Status) : Option (State Resp) :=
  match (s.reactors c).reading with
  | .idle | .pending =>
    if s.Active c then
      some { s.setReactor c { s.reactors c with finished := true } with
        status := status
        done := true }
    else none
  | _ => none

/-- The `stop` of thread `t` has joined its worker and returns. -/
def returnStop (s : State Resp) (t : ℕ) (target : Option ℕ) : Option (State Resp) :=
  if (t, target) ∈ s.threads.stops ∧ (∀ w ∈ target, (s.threads.workers w).pc = .ended) then
    some { s with
      threads := s.threads.drop t target
      trace := s.trace ++ [.stopReturned] }
  else none

end State

inductive Action (Resp : Type) where
  | start
  | stop (t : ℕ)
  | returnStop (t : ℕ) (target : Option ℕ)
  | worker (w : ℕ)
  | onReadDone (c : ℕ) (response : Option Resp)
  | readStep (c : ℕ)
  | onDone (c : ℕ) (status : Status)

/-- One step. A thread makes one call of `stop` at a time. -/
def step (cfg : Config Resp) (s : State Resp) : Action Resp → Option (State Resp)
  | .start => some s.start
  | .stop t => if ∀ p ∈ s.threads.stops, p.1 ≠ t then some (s.stop t) else none
  | .returnStop t target => s.returnStop t target
  | .worker w => s.workerStep cfg w
  | .onReadDone c response => s.onReadDone c response
  | .readStep c => s.readStep cfg c
  | .onDone c status => s.onDone c status

/-- The stream, from its construction on. -/
def system (cfg : Config Resp) : Lib.Transition.System (State Resp) (Action Resp) where
  init := {}
  step := step cfg

/-- Any interleaving. -/
def AnyOrder (_ : State Resp) (_ : Action Resp) : Prop := True

/-- `start()` launches no worker beside one that a `stop()` in progress is still joining. -/
def LaunchSafe (s : State Resp) (a : Action Resp) : Prop :=
  match a with
  | .start => s.threads.LaunchSafe
  | _ => True

/-- Neither `start()` nor `stop()` is called while a `stop()` is in progress. -/
def Sequential (s : State Resp) (a : Action Resp) : Prop :=
  match a with
  | .start | .stop _ => s.threads.stops = []
  | _ => True

instance (s : State Resp) (a : Action Resp) : Decidable (AnyOrder s a) :=
  inferInstanceAs (Decidable True)

instance (s : State Resp) (a : Action Resp) : Decidable (Sequential s a) :=
  match a with
  | .start | .stop _ => inferInstanceAs (Decidable (_ = _))
  | .returnStop .. | .worker _ | .onReadDone .. | .readStep _ | .onDone .. =>
    inferInstanceAs (Decidable True)

end ServerStream
end TInvest
