import TInvest.Lib.Interaction
import TInvest.Call.UnaryAsync

/-!
# Coroutines

`UnaryAwaiter`, `Task` and `sync_wait` of `include/tinvest/awaitable.hpp` over `unary_async`, as
a transition system. The program is the body of a coroutine: its own code, the unary calls and the
tasks it awaits. An awaited `Task` is the temporary of a statement of its own, so it is awaited once
and destroyed when the statement ends.

A thread is a stack of activations: what its topmost function does next, and below it what the
callers do when it returns. Thread `0` is the one that calls `sync_wait`; the completion of call
`c` runs on thread `c + 1`. The answer of the limiter is an action, so every limiter is covered.

Coroutine frames and the `State` objects of `unary_async` live on heaps. What the language leaves
undefined (touching a destroyed frame or a deleted `State`, resuming a coroutine that is not
suspended, reading an empty `optional`) sets `fault`.
-/

namespace TInvest
namespace Awaitable

open Lib.Interaction
open Lib.Transition
open Detail

/-- The body of a coroutine: what it does next for each answer. It is a well-founded tree, so its
control flow is finite on every sequence of answers; of a body that awaits in an unbounded loop,
the finite unfoldings are bodies, and a finite run cannot tell it from one of them. -/
abbrev Body (Req Resp V E : Type) := Prog Req (Result Resp) V E

/-- Where a coroutine stands. -/
inductive Point (Req Resp V E : Type) where
  /-- `initial_suspend`. -/
  | initial (body : Body Req Resp V E)
  | running
  /-- Suspended by a `UnaryAwaiter`, with its `result_`. -/
  | unary (req : Req) (k : Result Resp → Body Req Resp V E) (result : Option (Result Resp))
  /-- Suspended by the awaiter of a `Task`. -/
  | task (child : ℕ) (k : Except E V → Body Req Resp V E)
  /-- `final_suspend`. -/
  | final
  /-- There is no frame. -/
  | destroyed

/-- A coroutine frame: where the coroutine stands, and its `promise_type`. -/
structure Frame (Req Resp V E : Type) where
  point : Point Req Resp V E := .destroyed
  value : Option V := none
  exception : Option E := none
  continuation : Option ℕ := none
  /-- `on_complete` holds the function of `sync_wait`. -/
  onComplete : Bool := false

/-- What `await_resume` of a `Task` and `sync_wait` read: the exception, else the value. -/
def Frame.outcome {Req Resp V E : Type} (frame : Frame Req Resp V E) : Option (Except E V) :=
  match frame.exception with
  | some e => some (.error e)
  | none => frame.value.map .ok

/-- Where a `State` stands. -/
inductive CallPoint where
  | inFlight
  | completed
  /-- There is no `State`. -/
  | freed
deriving DecidableEq

/-- A `State`: the frame that its callback resumes. -/
structure Call where
  frame : ℕ
  point : CallPoint

/-- What a function does next. -/
inductive Activation (Req Resp V E : Type) where
  /-- `sync_wait`, up to the call of `resume`. -/
  | syncWait
  /-- `handle.resume()`, or a symmetric transfer. -/
  | resume (f : ℕ)
  /-- The code of a coroutine. -/
  | run (f : ℕ) (body : Body Req Resp V E)
  /-- `await_suspend` of a `UnaryAwaiter`, up to `try_acquire`. -/
  | suspend (f : ℕ) (req : Req)
  /-- The stub returns to `unary_async`. -/
  | starting (c : ℕ)
  /-- `unary_async` returns, and `await_suspend` after it. -/
  | suspended
  /-- The completion of a call, up to the call of the callback. -/
  | deliver (c : ℕ) (answer : Answer Resp)
  /-- The callback of `await_suspend`, up to the call of `resume`. -/
  | callback (f : ℕ) (result : Result Resp)
  /-- The callback returns. -/
  | resumed
  /-- `delete st`. -/
  | delete (c : ℕ)
  /-- `await_suspend` of the `FinalAwaiter`. -/
  | final (f : ℕ)
  /-- `done.release()`. -/
  | release
  /-- `done.acquire()`. -/
  | acquire
  /-- `sync_wait` reads the promise, and its task is destroyed. -/
  | collect

/-- What can be seen of the calls. -/
inductive Event (Req Resp : Type) where
  | denied (req : Req)
  | started (req : Req)
  | resumed (result : Result Resp)
deriving DecidableEq

/-- The heaps and the threads. -/
structure State (Req Resp V E : Type) where
  frames : ℕ → Frame Req Resp V E := fun _ => {}
  nextFrame : ℕ := 0
  calls : ℕ → Call := fun _ => ⟨0, .freed⟩
  nextCall : ℕ := 0
  threads : ℕ → List (Activation Req Resp V E) := fun _ => []
  semaphore : Bool := false
  /-- What `sync_wait` returns or throws. -/
  returned : Option (Except E V) := none
  fault : Bool := false
  trace : List (Event Req Resp) := []

/-- The steps of the threads, the answers of the limiter, and the completions. -/
inductive Action (Resp : Type) where
  | run (t : ℕ)
  | tryAcquire (t : ℕ) (admitted : Bool)
  | complete (c : ℕ) (answer : Answer Resp)

section
variable {Req Resp V E : Type}

namespace State

def setFrame (f : ℕ) (frame : Frame Req Resp V E) (s : State Req Resp V E) : State Req Resp V E :=
  { s with frames := Function.update s.frames f frame }

def setThread (t : ℕ) (stack : List (Activation Req Resp V E)) (s : State Req Resp V E) :
    State Req Resp V E :=
  { s with threads := Function.update s.threads t stack }

def setPoint (f : ℕ) (point : Point Req Resp V E) (s : State Req Resp V E) :
    State Req Resp V E :=
  s.setFrame f { s.frames f with point := point }

/-- The behaviour is undefined. -/
def undefined (s : State Req Resp V E) : State Req Resp V E := { s with fault := true }

end State

/-! ## The steps of a thread -/

/-- A coroutine is resumed: it starts, or `await_resume` gives it what it waits for. The `Task`
that it awaited is destroyed. -/
def resume (t : ℕ) (rest : List (Activation Req Resp V E)) (f : ℕ) (s : State Req Resp V E) :
    State Req Resp V E :=
  match (s.frames f).point with
  | .initial body => (s.setPoint f .running).setThread t (.run f body :: rest)
  | .unary _ k (some result) => (s.setPoint f .running).setThread t (.run f (k result) :: rest)
  | .task child k =>
    match (s.frames child).point, (s.frames child).outcome with
    | .final, some x =>
      ((s.setPoint f .running).setPoint child .destroyed).setThread t (.run f (k x) :: rest)
    | _, _ => s.undefined
  | _ => s.undefined

/-- The code of a coroutine up to its next suspension. -/
def runBody (t : ℕ) (rest : List (Activation Req Resp V E)) (f : ℕ) (body : Body Req Resp V E)
    (s : State Req Resp V E) : State Req Resp V E :=
  match (s.frames f).point with
  | .running =>
    match body with
    | .ret v =>
      (s.setFrame f { s.frames f with value := some v, point := .final }).setThread t
        (.final f :: rest)
    | .throw e =>
      (s.setFrame f { s.frames f with exception := some e, point := .final }).setThread t
        (.final f :: rest)
    | .ask req k => (s.setPoint f (.unary req k none)).setThread t (.suspend f req :: rest)
    | .call p k =>
      let child := s.nextFrame
      { ((s.setPoint f (.task child k)).setFrame child
          { point := .initial p, continuation := some f }).setThread t (.resume child :: rest) with
        nextFrame := s.nextFrame + 1 }
  | _ => s.undefined

/-- `FinalAwaiter::await_suspend`. -/
def finalSuspend (t : ℕ) (rest : List (Activation Req Resp V E)) (f : ℕ)
    (s : State Req Resp V E) : State Req Resp V E :=
  match (s.frames f).point with
  | .final =>
    match (s.frames f).continuation with
    | some parent => s.setThread t (.resume parent :: rest)
    | none =>
      if (s.frames f).onComplete then
        (s.setFrame f { s.frames f with onComplete := false }).setThread t (.release :: rest)
      else s.setThread t rest
  | _ => s.undefined

/-- The callback of `UnaryAwaiter::await_suspend`. -/
def callback (t : ℕ) (rest : List (Activation Req Resp V E)) (f : ℕ) (result : Result Resp)
    (s : State Req Resp V E) : State Req Resp V E :=
  match (s.frames f).point with
  | .unary req k _ =>
    { (s.setPoint f (.unary req k (some result))).setThread t (.resume f :: .resumed :: rest) with
      trace := s.trace ++ [.resumed result] }
  | _ => s.undefined

/-- The completion function of `unary_async`, up to the call of `st->cb`. -/
def deliver (t : ℕ) (rest : List (Activation Req Resp V E)) (c : ℕ) (answer : Answer Resp)
    (s : State Req Resp V E) : State Req Resp V E :=
  match (s.calls c).point with
  | .freed => s.undefined
  | _ => s.setThread t (.callback (s.calls c).frame (completion answer) :: rest)

/-- `delete st`. -/
def deleteState (t : ℕ) (rest : List (Activation Req Resp V E)) (c : ℕ)
    (s : State Req Resp V E) : State Req Resp V E :=
  match (s.calls c).point with
  | .freed => s.undefined
  | _ =>
    { s.setThread t rest with
      calls := Function.update s.calls c { s.calls c with point := .freed } }

/-- The end of `sync_wait`. -/
def collect (t : ℕ) (rest : List (Activation Req Resp V E)) (s : State Req Resp V E) :
    State Req Resp V E :=
  match (s.frames 0).point, (s.frames 0).outcome with
  | .final, some x => { (s.setPoint 0 .destroyed).setThread t rest with returned := some x }
  | _, _ => s.undefined

/-- A step of the topmost activation, if it can make one. -/
def activate (t : ℕ) (rest : List (Activation Req Resp V E)) (s : State Req Resp V E) :
    Activation Req Resp V E → Option (State Req Resp V E)
  | .syncWait =>
    some ((s.setFrame 0 { s.frames 0 with onComplete := true }).setThread t
      (.resume 0 :: .acquire :: rest))
  | .resume f => some (resume t rest f s)
  | .run f body => some (runBody t rest f body s)
  | .suspend _ _ => none
  | .starting _ => some (s.setThread t rest)
  | .suspended => some (s.setThread t rest)
  | .deliver c answer => some (deliver t rest c answer s)
  | .callback f result => some (callback t rest f result s)
  | .resumed => some (s.setThread t rest)
  | .delete c => some (deleteState t rest c s)
  | .final f => some (finalSuspend t rest f s)
  | .release => some { s.setThread t rest with semaphore := true }
  | .acquire =>
    if s.semaphore then some { s.setThread t (.collect :: rest) with semaphore := false } else none
  | .collect => some (collect t rest s)

def runThread (t : ℕ) (s : State Req Resp V E) : Option (State Req Resp V E) :=
  match s.threads t with
  | [] => none
  | a :: rest => activate t rest s a

/-- `try_acquire` returns to `unary_async`: the callback is called with the local error, or the
stub is invoked with a new `State`. -/
def tryAcquire (t : ℕ) (admitted : Bool) (s : State Req Resp V E) :
    Option (State Req Resp V E) :=
  match s.threads t with
  | .suspend f req :: rest =>
    if admitted then
      some { s.setThread t (.starting s.nextCall :: .suspended :: rest) with
        calls := Function.update s.calls s.nextCall ⟨f, .inFlight⟩
        nextCall := s.nextCall + 1
        trace := s.trace ++ [.started req] }
    else
      some { s.setThread t (.callback f (.error limitExceeded) :: .suspended :: rest) with
        trace := s.trace ++ [.denied req] }
  | _ => none

/-- gRPC completes a call, on a new thread. -/
def complete (c : ℕ) (answer : Answer Resp) (s : State Req Resp V E) :
    Option (State Req Resp V E) :=
  match (s.calls c).point with
  | .inFlight =>
    some { s.setThread (c + 1) [.deliver c answer, .delete c] with
      calls := Function.update s.calls c { s.calls c with point := .completed } }
  | _ => none

/-- One step. -/
def step (s : State Req Resp V E) : Action Resp → Option (State Req Resp V E)
  | .run t => runThread t s
  | .tryAcquire t admitted => tryAcquire t admitted s
  | .complete c answer => complete c answer s

/-- A thread is about to call `sync_wait` on a task with the given body. -/
def start (body : Body Req Resp V E) : State Req Resp V E where
  frames := Function.update (fun _ => {}) 0 { point := .initial body }
  nextFrame := 1
  threads := Function.update (fun _ => []) 0 [.syncWait]

/-- `sync_wait` on a task with the given body. -/
def syncWait (body : Body Req Resp V E) : System (State Req Resp V E) (Action Resp) :=
  ⟨start body, step⟩

end

end Awaitable
end TInvest
