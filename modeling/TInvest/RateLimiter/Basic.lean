import TInvest.Lib.MapFold
import TInvest.Lib.Transition

/-!
# The client-side rate limiter

The class `RateLimiter` of `include/tinvest/rate_limiter.hpp`, as a transition system: each action
is one section of a thread that holds `mu_`. A blocked `acquire` releases the mutex in
`wait_until` and re-checks in a section of its own, the action `wake`: a condition variable may
wake up at any time, so it is always enabled for a waiting caller.

Groups are objects on a heap, because `by_method_` and blocked callers share them. An action brings
the reading of the clock that its section makes; times count from the epoch of the clock, and the
window is a parameter. The trace records what the sections do. It also records the group the table
held for an admitted method, beside the group that was charged.
-/

namespace TInvest
namespace RateLimiter

open Std
open Lib.MapFold
open Lib.Transition

/-- `Group`. -/
structure Group where
  limit : ℤ := 0
  count : ℕ := 0
  windowStart : ℤ := 0

/-- `UnaryLimit` of a tariff. -/
structure UnaryLimit where
  limitPerMinute : ℤ
  methods : List String
deriving DecidableEq

/-- `GetUserTariffResponse`, as far as `configure` reads it. -/
abbrev Tariff := List UnaryLimit

/-- What a section does to the outside or to a group. -/
inductive Event where
  /-- `configure` or `set_limit`. -/
  | reconfigured
  /-- `roll_window` opens a window of the group. -/
  | opened (group : ℕ) (now : ℤ)
  /-- `acquire` returns or `try_acquire` returns true. -/
  | admitted (method : String) (inForce : Option ℕ) (charged : Option ℕ) (now : ℤ)
  /-- `try_acquire` returns false or `acquire` goes to wait. -/
  | full (method : String) (group : ℕ) (now : ℤ)
deriving DecidableEq

/-- The object: the table, the groups, and the callers blocked in `acquire` with the method they
ask for and the group they hold. -/
structure State where
  byMethod : ExtTreeMap String ℕ compare := ∅
  groups : ℕ → Group := fun _ => {}
  nextGroup : ℕ := 0
  waiting : ℕ → Option (String × ℕ) := fun _ => none
  trace : List Event := []

/-- The sections, with the reading of the clock. -/
inductive Action where
  | configure (tariff : Tariff)
  | setLimit (methods : List String) (perMinute : ℤ)
  | tryAcquire (method : String) (now : ℤ)
  | acquire (thread : ℕ) (method : String) (now : ℤ)
  | wake (thread : ℕ) (now : ℤ)

/-- The reading of the clock of a section that asks for a slot. -/
def Action.now? : Action → Option ℤ
  | .configure _ => none
  | .setLimit _ _ => none
  | .tryAcquire _ now => some now
  | .acquire _ _ now => some now
  | .wake _ now => some now

/-! ## The table -/

/-- `normalize`: one leading slash is dropped. -/
def normalize (method : String) : String :=
  match method.toList with
  | '/' :: cs => String.ofList cs
  | _ => method

/-- A new group for the listed methods. -/
def addGroup (methods : List String) (limit : ℤ) (s : State) : State :=
  { s with
    groups := Function.update s.groups s.nextGroup { limit := limit }
    nextGroup := s.nextGroup + 1
    byMethod := insertEach s.byMethod (methods.map normalize) fun _ => s.nextGroup }

/-- The groups of a tariff, in its order. -/
def addGroups (tariff : Tariff) (s : State) : State :=
  tariff.foldl (fun s ul => addGroup ul.methods ul.limitPerMinute s) s

/-- `configure`. -/
def configure (tariff : Tariff) (s : State) : State :=
  let s := addGroups tariff { s with byMethod := ∅ }
  { s with trace := s.trace ++ [.reconfigured] }

/-- `set_limit`. -/
def setLimit (methods : List String) (perMinute : ℤ) (s : State) : State :=
  let s := addGroup methods perMinute s
  { s with trace := s.trace ++ [.reconfigured] }

/-! ## Asking for a slot -/

/-- `roll_window`. -/
def rollWindow (W now : ℤ) (g : Group) : Group :=
  if W ≤ now - g.windowStart then { g with windowStart := now, count := 0 } else g

/-- What a caller finds in its group. -/
inductive Outcome where
  | unlimited
  | admitted
  | full
deriving DecidableEq

/-- The body shared by `try_acquire` and the loop of `acquire`. -/
def enter (W now : ℤ) (g : Group) : Group × Outcome :=
  if g.limit ≤ 0 then (g, .unlimited)
  else
    let g := rollWindow W now g
    if (g.count : ℤ) < g.limit then ({ g with count := g.count + 1 }, .admitted)
    else (g, .full)

/-- The events of that body, for the group object `g` and the table's group `inForce`. -/
def enterEvents (W now : ℤ) (method : String) (inForce : Option ℕ) (g : ℕ) (before : Group) :
    List Event :=
  let opened :=
    if 0 < before.limit ∧ W ≤ now - before.windowStart then [Event.opened g now] else []
  match (enter W now before).2 with
  | .unlimited => opened ++ [.admitted method inForce none now]
  | .admitted => opened ++ [.admitted method inForce (some g) now]
  | .full => opened ++ [.full method g now]

/-- One check of a caller: it passes without a group, else it runs the body on its group. -/
def check (W : ℤ) (s : State) (method : String) (group : Option ℕ) (now : ℤ) : State × Outcome :=
  match group with
  | none =>
    ({ s with trace := s.trace ++ [.admitted method s.byMethod[method]? none now] }, .unlimited)
  | some g =>
    let (after, outcome) := enter W now (s.groups g)
    ({ s with
        groups := Function.update s.groups g after
        trace := s.trace ++ enterEvents W now method s.byMethod[method]? g (s.groups g) },
      outcome)

/-- `try_acquire`. -/
def tryAcquire (W : ℤ) (method : String) (now : ℤ) (s : State) : State :=
  (check W s method s.byMethod[method]? now).1

/-- `acquire` up to its return or its first wait: the caller keeps the group it found. -/
def acquire (W : ℤ) (thread : ℕ) (method : String) (now : ℤ) (s : State) : Option State :=
  if s.waiting thread = none then
    let group := s.byMethod[method]?
    let (s', outcome) := check W s method group now
    some (if outcome = .full then
      { s' with waiting := Function.update s'.waiting thread (group.map fun g => (method, g)) }
    else s')
  else none

/-- The loop of `acquire` after a wait, on the group it was entered with. -/
def wake (W : ℤ) (thread : ℕ) (now : ℤ) (s : State) : Option State :=
  match s.waiting thread with
  | none => none
  | some (method, g) =>
    let (s', outcome) := check W s method (some g) now
    some (if outcome = .full then s'
    else { s' with waiting := Function.update s'.waiting thread none })

/-- One section. -/
def step (W : ℤ) (s : State) : Action → Option State
  | .configure tariff => some (configure tariff s)
  | .setLimit methods perMinute => some (setLimit methods perMinute s)
  | .tryAcquire method now => some (tryAcquire W method now s)
  | .acquire thread method now => acquire W thread method now s
  | .wake thread now => wake W thread now s

/-- The limiter with window `W`, unconfigured at first. -/
def limiter (W : ℤ) : System State Action := ⟨{}, step W⟩

end RateLimiter
end TInvest
