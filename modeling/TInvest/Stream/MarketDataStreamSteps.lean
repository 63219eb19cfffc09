import TInvest.Stream.MarketDataStream

/-!
# The steps of the market-data stream

One inversion lemma for the whole step function, so that an invariant is a case analysis on
what a step did and never unfolds the step function again.

* `releaseLocked_cases`, `maybeWriteLocked_cases` — what the two shared critical sections do;
* `Move`, `exists_move_of_step` — what a step does to the state;
* `move_of_step` — and to the worker that runs, while the launches are safe;
* `invariant_of_move` — the induction over a run, with the running worker at hand.
-/

namespace TInvest
namespace MarketDataStream

open Pb
open Lib.Transition

variable {cfg : Config} {s s' : State} {a : Action} {c w w' : ℕ} {pc pc' : Pc Once}

/-! ## The shared critical sections -/

lemma releaseLocked_cases (s : State) (caller : Caller) :
    ((s.reactor = none ∨ s.holdReleased = true) ∧ s.releaseLocked caller = s) ∨
    ∃ c, s.reactor = some c ∧ s.holdReleased = false ∧
      s.releaseLocked caller =
        { s with
          holdReleased := true
          releases := (caller, c) :: s.releases
          trace := s.trace ++ [.holdReleased c] } := by
  unfold State.releaseLocked
  -- the two tests of `if (reactor_ && !hold_released_)`
  cases hr : s.reactor with
  | none => exact Or.inl ⟨Or.inl rfl, rfl⟩
  | some c =>
    cases hh : s.holdReleased with
    | true => exact Or.inl ⟨Or.inr rfl, rfl⟩
    | false => exact Or.inr ⟨c, rfl, rfl, rfl⟩

/-- The stream takes requests: the reactor is published and neither broken nor released. -/
def State.Live (s : State) (c : ℕ) : Prop :=
  s.reactor = some c ∧ s.broken = false ∧ s.holdReleased = false

instance (s : State) (c : ℕ) : Decidable (s.Live c) := inferInstanceAs (Decidable (_ ∧ _))

lemma maybeWriteLocked_cases (s : State) :
    ((∀ c, s.Live c → s.writeQueue = [] ∨ s.writeInFlight = true) ∧ s.maybeWriteLocked = s) ∨
    ∃ c next rest, s.Live c ∧ s.writeInFlight = false ∧ s.writeQueue = next :: rest ∧
      s.maybeWriteLocked =
        { s with
          writeInFlight := true
          writeQueue := rest
          reactors := Function.update s.reactors c
            { s.reactors c with writes := (s.reactors c).writes + 1 }
          trace := s.trace ++ [.startWrite c next] } := by
  unfold State.maybeWriteLocked State.Live
  cases hr : s.reactor with
  | none => exact Or.inl ⟨by simp, rfl⟩
  | some c =>
    cases hq : s.writeQueue with
    | nil => exact Or.inl ⟨by simp, rfl⟩
    | cons next rest =>
      by_cases hblocked : s.broken || s.holdReleased || s.writeInFlight
      · -- on a live stream only the write in flight can block the next one
        refine Or.inl ⟨?_, if_pos hblocked⟩
        intro c' hlive
        simp only [hlive.2.1, hlive.2.2, Bool.false_or] at hblocked
        exact Or.inr hblocked
      · have hfree : s.broken = false ∧ s.holdReleased = false ∧ s.writeInFlight = false := by
          simpa [and_assoc] using hblocked
        exact Or.inr ⟨c, next, rest, ⟨rfl, hfree.1, hfree.2.1⟩, hfree.2.2, rfl, if_neg hblocked⟩

/-! ## `stop`, `send` and the publication -/

lemma stop_eq (s : State) (t : ℕ) :
    s.stop t =
      { s.releaseLocked (.stop t) with
        stopping := true
        broken := true
        threads := s.threads.take t
        trace := (s.releaseLocked (.stop t)).trace ++ (s.ctx.map Event.tryCancel).toList } := by
  unfold State.stop State.releaseLocked
  cases hr : s.reactor <;> cases hh : s.holdReleased <;> cases hc : s.ctx <;>
    simp [hr, hh, hc, State.emit]

/-- The registry after `send`. -/
def State.recorded (s : State) (o : Outgoing) : Registry :=
  if o.remembered then recordRequest s.subscriptions o.request else s.subscriptions

lemma send_cases (s : State) (o : Outgoing) :
    (s.stopping = true ∧ s.send o = { s with trace := s.trace ++ [.sent o false] }) ∨
    (s.stopping = false ∧ (∀ c, ¬ s.Live c) ∧
      s.send o =
        { s with
          subscriptions := s.recorded o
          trace := s.trace ++ [.sent o true] }) ∨
    ∃ c, s.stopping = false ∧ s.Live c ∧
      s.send o =
        State.maybeWriteLocked
          { s with
            subscriptions := s.recorded o
            trace := s.trace ++ [.sent o true]
            writeQueue := s.writeQueue ++ [o] } := by
  by_cases hstop : s.stopping = true
  · left
    refine ⟨hstop, ?_⟩
    unfold State.send
    rw [if_pos hstop]
    rfl
  · right
    -- the registry update and the event come first on both paths
    have hsend : s.send o =
        if s.reactor.isSome && !s.broken && !s.holdReleased then
          State.maybeWriteLocked
            { s with
              subscriptions := s.recorded o
              trace := s.trace ++ [.sent o true]
              writeQueue := s.writeQueue ++ [o] }
        else
          { s with
            subscriptions := s.recorded o
            trace := s.trace ++ [.sent o true] } := by
      unfold State.send State.recorded
      rw [if_neg hstop]
      cases o.remembered <;> rfl
    have hrun : s.stopping = false := by simpa using hstop
    by_cases hlive : (s.reactor.isSome && !s.broken && !s.holdReleased) = true
    · right
      rw [if_pos hlive] at hsend
      simp only [Bool.and_eq_true, Option.isSome_iff_exists, Bool.not_eq_true'] at hlive
      obtain ⟨⟨⟨c, hc⟩, hbroken⟩, hheld⟩ := hlive
      exact ⟨c, hrun, ⟨hc, hbroken, hheld⟩, hsend⟩
    · left
      rw [if_neg hlive] at hsend
      refine ⟨hrun, ?_, hsend⟩
      intro c hc
      exact hlive (by simp [hc.1, hc.2.1, hc.2.2])

/-- The state in which the reactor is published, before the hold is released or the first
write is started. -/
def State.withReactor (s : State) (w c : ℕ) : State :=
  { s.setPc w (.once (.waiting c)) with
    reactor := some c
    trace := s.trace ++ [.published c] }

lemma publish_cases (s : State) (w c : ℕ) :
    (s.done = true ∧ s.publish w c = s.setPc w (.once (.waiting c))) ∨
    (s.done = false ∧ (s.stopping = true ∨ s.broken = true) ∧ s.holdReleased = false ∧
      s.publish w c = (s.withReactor w c).releaseLocked (.worker w)) ∨
    (s.done = false ∧ (s.stopping = false ∧ s.broken = false ∨ s.holdReleased = true) ∧
      s.publish w c = (s.withReactor w c).maybeWriteLocked) := by
  unfold State.publish State.withReactor State.setPc State.emit
  -- the outcome depends on the four flags alone
  cases s.done <;> cases s.stopping <;> cases s.broken <;> cases s.holdReleased <;> simp

/-! ## Moves -/

/-- What one step does, where `w` is the worker that runs, at `pc`. -/
inductive Move (cfg : Config) (s : State) (w : ℕ) (pc : Pc Once) :
    Action → State → ℕ → Pc Once → Prop
  /-- `start()` launches a worker. -/
  | launch (hpc : pc = .ended) :
    Move cfg s w pc .start
      { s with
        stopping := false
        threads := s.threads.launch
        trace := s.trace ++ [.session (.launched s.threads.nextWorker)] }
      s.threads.nextWorker .loopHead
  /-- `start()` finds `worker_` joinable. -/
  | joinable : Move cfg s w pc .start s w pc
  | stop (t : ℕ) : Move cfg s w pc (.stop t) (s.stop t) w pc
  | returnStop (t : ℕ) (target : Option ℕ) (hmem : (t, target) ∈ s.threads.stops)
    (hended : ∀ v ∈ target, ¬ s.threads.Running v) :
    Move cfg s w pc (.returnStop t target)
      { s with
        threads := s.threads.drop t target
        trace := s.trace ++ [.session .stopReturned] } w pc
  | send (request : MarketDataRequest) (remember : Bool) :
    Move cfg s w pc (.send request remember) (s.send ⟨request, remember⟩) w pc
  /-- A step of `run()` outside `run_once()`. -/
  | run (worker : Worker Once) (es : List (SessionEvent Call)) (hrun : ∀ k, pc = .once k → False)
    (hpc : (s.threads.workers w).pc = pc)
    (hstep : (s.threads.workers w).step cfg.opts .fill w s.stopping s.gotData
      = some (worker, es)) :
    Move cfg s w pc (.worker w)
      { s with
        threads := s.threads.setWorker w worker
        trace := s.trace ++ es.map .session } w worker.pc
  | cancelled (hpc : pc = .once .fill) (hstopping : s.stopping = true) :
    Move cfg s w pc (.worker w) (s.fill w) w (.returned .cancelled)
  | fill (hpc : pc = .once .fill) (hstopping : s.stopping = false) :
    Move cfg s w pc (.worker w) (s.fill w) w (.once (.startCall s.nextConn))
  | startCall (c : ℕ) (hpc : pc = .once (.startCall c)) :
    Move cfg s w pc (.worker w) (s.startCall w c) w (.once (.publish c))
  | publish (c : ℕ) (hpc : pc = .once (.publish c)) :
    Move cfg s w pc (.worker w) (s.publish w c) w (.once (.waiting c))
  | finishOnce (c : ℕ) (hpc : pc = .once (.waiting c)) (hdone : s.done = true) :
    Move cfg s w pc (.worker w) (s.finishOnce w) w (.returned s.status)
  | response (c : ℕ) (r : MarketDataResponse) (hactive : s.Active c)
    (hreading : (s.reactors c).reading = .pending) :
    Move cfg s w pc (.onReadDone c (some r)) (s.handleResponse cfg c r) w pc
  | readClosed (c : ℕ) (hactive : s.Active c) (hreading : (s.reactors c).reading = .pending) :
    Move cfg s w pc (.onReadDone c none)
      ((s.setReactor c { s.reactors c with reading := .idle }).handleReadClosed (.read c)) w pc
  | connected (c : ℕ) (r : MarketDataResponse) (hactive : s.Active c)
    (hreading : (s.reactors c).reading = .connected r) :
    Move cfg s w pc (.readStep c)
      ((s.setReactor c
        { s.reactors c with reading := .dispatching (dispatch cfg.handlers r) }).emit
          (.session (.notified (.reactor c) .connected none))) w pc
  | handled (c : ℕ) (call : Call) (calls : List Call) (hactive : s.Active c)
    (hreading : (s.reactors c).reading = .dispatching (call :: calls)) :
    Move cfg s w pc (.readStep c)
      ((s.setReactor c { s.reactors c with reading := .dispatching calls }).emit
        (.session (.handled c call))) w pc
  | startRead (c : ℕ) (hactive : s.Active c)
    (hreading : (s.reactors c).reading = .dispatching []) :
    Move cfg s w pc (.readStep c) (s.setReactor c { s.reactors c with reading := .pending }) w pc
  | writeDone (c : ℕ) (ok : Bool) (hactive : s.Active c) (hwrites : 0 < (s.reactors c).writes) :
    Move cfg s w pc (.onWriteDone c ok)
      ((s.setReactor c
        { s.reactors c with writes := (s.reactors c).writes - 1 }).handleWriteDone c ok) w pc
  | done (c : ℕ) (status : Status) (hactive : s.Active c) (hholds : (s.reactors c).holds = 0)
    (hreading : (s.reactors c).reading = .idle ∨ (s.reactors c).reading = .pending)
    (hread : s.ReleasedBy (.read c)) (hwrite : s.ReleasedBy (.write c)) :
    Move cfg s w pc (.onDone c status)
      (((s.setReactor c { s.reactors c with finished := true }).handleDone status).emit
        (.done c)) w pc
  | removeHold (caller : Caller) (c : ℕ) (hmem : (caller, c) ∈ s.releases) :
    Move cfg s w pc (.removeHold caller c)
      (({ s with releases := s.releases.erase (caller, c) }.setReactor c
        { s.reactors c with holds := (s.reactors c).holds - 1 }).emit (.removeHold c)) w pc

/-! ## Threads along a step -/

@[simp] lemma releaseLocked_threads (s : State) (caller : Caller) :
    (s.releaseLocked caller).threads = s.threads := by
  rcases releaseLocked_cases s caller with ⟨-, h⟩ | ⟨c, -, -, h⟩ <;> rw [h]

@[simp] lemma maybeWriteLocked_threads (s : State) :
    s.maybeWriteLocked.threads = s.threads := by
  rcases maybeWriteLocked_cases s with ⟨-, h⟩ | ⟨c, next, rest, -, -, -, h⟩ <;> rw [h]

@[simp] lemma stop_threads (s : State) (t : ℕ) : (s.stop t).threads = s.threads.take t := by
  unfold State.stop
  dsimp only
  split <;> simp [State.emit]

@[simp] lemma send_threads (s : State) (o : Outgoing) : (s.send o).threads = s.threads := by
  unfold State.send
  split
  · rfl
  · dsimp only
    split <;> split <;> simp [State.emit]

@[simp] lemma handleReadClosed_threads (s : State) (caller : Caller) :
    (s.handleReadClosed caller).threads = s.threads := by
  simp [State.handleReadClosed]

@[simp] lemma handleWriteDone_threads (s : State) (c : ℕ) (ok : Bool) :
    (s.handleWriteDone c ok).threads = s.threads := by
  unfold State.handleWriteDone
  split <;> simp

@[simp] lemma handleResponse_threads (s : State) (c : ℕ) (r : MarketDataResponse) :
    (s.handleResponse cfg c r).threads = s.threads := by
  unfold State.handleResponse
  split <;> rfl

@[simp] lemma publish_threads (s : State) (w c : ℕ) :
    (s.publish w c).threads = (s.setPc w (.once (.waiting c))).threads := by
  unfold State.publish
  dsimp only
  split
  · rfl
  · split <;> simp [State.emit]

/-- A step of a worker, by its point. -/
lemma move_of_workerStep {v : ℕ} (hpc : (s.threads.workers v).pc = pc)
    (h : s.workerStep cfg v = some s') :
    s.threads.Running v ∧ ∃ worker : Worker Once,
      Move cfg s v pc (.worker v) s' v worker.pc ∧
        s'.threads = s.threads.setWorker v worker := by
  -- a worker that has left `run()` has no step
  have hrun : s.threads.Running v := by
    intro hended
    simp [State.workerStep, hended, Worker.step] at h
  refine ⟨hrun, ?_⟩
  -- every point of `run_once()` only replaces the worker's `pc`
  have hset : ∀ {pc' : Pc Once} {s'' : State}, Move cfg s v pc (.worker v) s'' v pc' →
      s''.threads = (s.setPc v pc').threads → ∃ worker : Worker Once,
        Move cfg s v pc (.worker v) s'' v worker.pc ∧
          s''.threads = s.threads.setWorker v worker :=
    fun hmove heq => ⟨_, hmove, heq⟩
  unfold State.workerStep at h
  split at h
  · -- `stopping_` is tested under the lock of the queue fill
    next hfill =>
    cases h
    rw [hpc] at hfill
    cases hstop : s.stopping with
    | true =>
      apply hset (.cancelled hfill hstop)
      simp [State.fill, hstop]
    | false =>
      apply hset (.fill hfill hstop)
      simp [State.fill, hstop, State.setPc, State.emit]
  · next c hc =>
    cases h
    rw [hpc] at hc
    exact hset (.startCall c hc) rfl
  · next c hc =>
    cases h
    rw [hpc] at hc
    exact hset (.publish c hc) (by simp)
  · next c hc =>
    split at h
    · next hdone =>
      cases h
      rw [hpc] at hc
      exact hset (.finishOnce c hc hdone.1) rfl
    · exact absurd h (by simp)
  · next hnot₁ hnot₂ hnot₃ hnot₄ =>
    obtain ⟨⟨worker, es⟩, hstep, rfl⟩ := Option.map_eq_some_iff.mp h
    refine ⟨worker, .run worker es ?_ hpc hstep, rfl⟩
    -- the branches before this one took every point of `run_once()`
    intro k hk
    rw [← hpc] at hk
    cases k with
    | fill => exact hnot₁ hk
    | startCall c => exact hnot₂ c hk
    | publish c => exact hnot₃ c hk
    | waiting c => exact hnot₄ c hk

lemma move_of_stop {t : ℕ} (h : step cfg s (.stop t) = some s') :
    Move cfg s w pc (.stop t) s' w pc ∧ s'.threads = s.threads.take t := by
  rw [step] at h
  split at h
  · cases h
    exact ⟨.stop t, stop_threads s t⟩
  · exact absurd h (by simp)

lemma move_of_returnStop {t : ℕ} {target : Option ℕ} (h : s.returnStop t target = some s') :
    Move cfg s w pc (.returnStop t target) s' w pc ∧ s'.threads = s.threads.drop t target ∧
      ∀ v ∈ target, ¬ s.threads.Running v := by
  unfold State.returnStop at h
  split at h
  · next hguard =>
    cases h
    -- the join has returned, so the worker taken over is not running
    have hended : ∀ v ∈ target, ¬ s.threads.Running v :=
      fun v hv hrun => hrun (hguard.2.2 v hv)
    exact ⟨.returnStop t target hguard.1 hended, rfl, hended⟩
  · exact absurd h (by simp)

lemma move_of_onReadDone {response : Option MarketDataResponse}
    (h : s.onReadDone cfg c response = some s') :
    Move cfg s w pc (.onReadDone c response) s' w pc ∧ s'.threads = s.threads := by
  unfold State.onReadDone at h
  split at h
  · next hguard =>
    -- no response stands for `ok == false`
    cases response with
    | some r =>
      cases h
      exact ⟨.response c r hguard.1 hguard.2, by simp⟩
    | none =>
      cases h
      exact ⟨.readClosed c hguard.1 hguard.2, by simp [State.setReactor]⟩
  · exact absurd h (by simp)

lemma move_of_readStep (h : s.readStep cfg c = some s') :
    Move cfg s w pc (.readStep c) s' w pc ∧ s'.threads = s.threads := by
  unfold State.readStep at h
  split at h
  · next hactive =>
    split at h
    · next r hr =>
      cases h
      exact ⟨.connected c r hactive hr, rfl⟩
    · next call calls hr =>
      cases h
      exact ⟨.handled c call calls hactive hr, rfl⟩
    · next hr =>
      cases h
      exact ⟨.startRead c hactive hr, rfl⟩
    all_goals exact absurd h (by simp)
  · exact absurd h (by simp)

lemma move_of_onWriteDone {ok : Bool} (h : s.onWriteDone c ok = some s') :
    Move cfg s w pc (.onWriteDone c ok) s' w pc ∧ s'.threads = s.threads := by
  unfold State.onWriteDone at h
  split at h
  · next hguard =>
    cases h
    exact ⟨.writeDone c ok hguard.1 hguard.2, by simp [State.setReactor]⟩
  · exact absurd h (by simp)

lemma move_of_onDone {status : Status} (h : s.onDone c status = some s') :
    Move cfg s w pc (.onDone c status) s' w pc ∧ s'.threads = s.threads := by
  unfold State.onDone at h
  split at h
  · next hguard =>
    cases h
    obtain ⟨hactive, hholds, hreading, hread, hwrite⟩ := hguard
    exact ⟨.done c status hactive hholds hreading hread hwrite, rfl⟩
  · exact absurd h (by simp)

lemma move_of_removeHold {caller : Caller} (h : s.removeHold caller c = some s') :
    Move cfg s w pc (.removeHold caller c) s' w pc ∧ s'.threads = s.threads := by
  unfold State.removeHold at h
  split at h
  · next hmem =>
    cases h
    exact ⟨.removeHold caller c hmem, rfl⟩
  · exact absurd h (by simp)

/-- **Inversion.** Every step is a move, of some worker. -/
lemma exists_move_of_step (h : step cfg s a = some s') :
    ∃ w pc w' pc', Move cfg s w pc a s' w' pc' := by
  cases a with
  | start =>
    cases h
    unfold State.start
    cases s.threads.worker with
    | some v => exact ⟨0, .ended, _, _, .joinable⟩
    | none => exact ⟨0, .ended, _, _, .launch rfl⟩
  | stop t => exact ⟨0, .ended, _, _, (move_of_stop h).1⟩
  | returnStop t target => exact ⟨0, .ended, _, _, (move_of_returnStop h).1⟩
  | send request remember =>
    cases h
    exact ⟨0, .ended, _, _, .send request remember⟩
  | worker v =>
    obtain ⟨-, worker, hmove, -⟩ := move_of_workerStep rfl h
    exact ⟨_, _, _, _, hmove⟩
  | onReadDone c response => exact ⟨0, .ended, _, _, (move_of_onReadDone h).1⟩
  | readStep c => exact ⟨0, .ended, _, _, (move_of_readStep h).1⟩
  | onWriteDone c ok => exact ⟨0, .ended, _, _, (move_of_onWriteDone h).1⟩
  | onDone c status => exact ⟨0, .ended, _, _, (move_of_onDone h).1⟩
  | removeHold caller c => exact ⟨0, .ended, _, _, (move_of_removeHold h).1⟩

/-- While the launches are safe it is a move of the worker that runs, and at most one worker runs
after it. -/
lemma move_of_step (hsingle : s.threads.Single) (hcur : s.threads.Current w pc)
    (hok : LaunchSafe s a) (h : step cfg s a = some s') :
    ∃ w' pc', Move cfg s w pc a s' w' pc' ∧ s'.threads.Single ∧ s'.threads.Current w' pc' := by
  -- a step that leaves the threads alone
  have hkeep : Move cfg s w pc a s' w pc ∧ s'.threads = s.threads →
      ∃ w' pc', Move cfg s w pc a s' w' pc' ∧ s'.threads.Single ∧ s'.threads.Current w' pc' :=
    fun ⟨hmove, heq⟩ => ⟨w, pc, hmove, heq ▸ hsingle, heq ▸ hcur⟩
  cases a with
  | start =>
    cases h
    have hsafe : s.threads.LaunchSafe := hok
    unfold State.start at *
    cases hworker : s.threads.worker with
    | some v =>
      rw [hworker] at hkeep
      exact hkeep ⟨.joinable, rfl⟩
    | none =>
      -- the launch is safe, so the old worker has ended and the new one is the only one
      refine ⟨_, _, .launch ?_, hsingle.launch hworker hsafe, .launch hsingle hworker hsafe⟩
      exact hcur.of_none (hsingle.not_running hworker hsafe)
  | stop t =>
    obtain ⟨hmove, hthreads⟩ := move_of_stop h
    exact ⟨w, pc, hmove, hthreads ▸ hsingle.take t, hthreads ▸ hcur.take t⟩
  | returnStop t target =>
    obtain ⟨hmove, hthreads, hended⟩ := move_of_returnStop h
    exact ⟨w, pc, hmove, hthreads ▸ hsingle.drop hended, hthreads ▸ hcur.drop t target⟩
  | send request remember =>
    cases h
    exact hkeep ⟨.send request remember, send_threads ..⟩
  | worker v =>
    obtain ⟨hrun, worker, hmove, hthreads⟩ := move_of_workerStep rfl h
    obtain ⟨rfl, rfl⟩ := hcur.of_running v hrun
    exact ⟨_, _, hmove, hthreads ▸ hsingle.setWorker hrun worker,
      hthreads ▸ .setWorker hsingle hrun worker⟩
  | onReadDone c response => exact hkeep (move_of_onReadDone h)
  | readStep c => exact hkeep (move_of_readStep h)
  | onWriteDone c ok => exact hkeep (move_of_onWriteDone h)
  | onDone c status => exact hkeep (move_of_onDone h)
  | removeHold caller c => exact hkeep (move_of_removeHold h)

/-! ## Runs -/

section Runs

lemma NonOverlap.launchSafe (s : State) (a : Action) (h : NonOverlap s a) : LaunchSafe s a := by
  cases a <;> first | exact Threads.launchSafe_of_stops h | trivial

lemma Sequential.launchSafe (s : State) (a : Action) (h : Sequential s a) : LaunchSafe s a := by
  cases a <;> first | exact Threads.launchSafe_of_stops h | trivial

variable {ok : State → Action → Prop}

/-- **At most one worker**, while every launch is safe. -/
lemma single_of_reachable (hok : ∀ s a, ok s a → LaunchSafe s a)
    (h : Reachable (system cfg) ok s) :
    s.threads.Single ∧ ∃ w pc, s.threads.Current w pc := by
  obtain ⟨hsingle, w, pc, hcur, -⟩ :=
    Threads.invariant_of_moves State.threads (Move cfg) (J := fun _ _ _ => True) rfl
      (fun s a _ _ _ hsingle hcur ha hs => move_of_step hsingle hcur (hok s a ha) hs)
      trivial (fun _ _ _ _ _ _ _ _ _ _ _ _ => trivial) h
  exact ⟨hsingle, w, pc, hcur⟩

/-- The run rule of this stream. -/
lemma invariant_of_move {J : State → ℕ → Pc Once → Prop} (hok : ∀ s a, ok s a → LaunchSafe s a)
    (h0 : J {} 0 .ended)
    (hmove : ∀ s a s' w pc w' pc', Reachable (system cfg) ok s → s.threads.Current w pc →
      ok s a → Move cfg s w pc a s' w' pc' → J s w pc → J s' w' pc')
    (h : Reachable (system cfg) ok s) : ∃ w pc, s.threads.Current w pc ∧ J s w pc :=
  (Threads.invariant_of_moves State.threads (Move cfg) rfl
    (fun s a _ _ _ hsingle hcur ha hs => move_of_step hsingle hcur (hok s a ha) hs) h0 hmove h).2

end Runs

/-- A stream with every handler set. -/
def demoConfig : Config := { handlers := fun _ => true }

/-- A `start()` and the steps of its worker up to the wait for `done_`. -/
def connectSteps : List Action :=
  [.start, .worker 0, .worker 0, .worker 0, .worker 0, .worker 0]

end MarketDataStream
end TInvest
