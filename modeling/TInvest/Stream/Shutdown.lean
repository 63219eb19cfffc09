import TInvest.Stream.Lifecycle

/-!
# The return of `stop()`

Once `stopping_` is set and nobody calls `start()`, every thread that is inside the stream gets
out of it, in either stream. User code is assumed to return, and not to call `stop()` from a
handler, which would wait for itself. Of gRPC no more is assumed than that it completes the
operations of a cancelled call and delivers its `OnDone`.

* `potential_of_move` — every step lowers a potential, but for what the environment pays in: a
  further call of `stop()` or `send()`, a message that still arrives;
* `quiet_of_settled` — where neither a thread nor gRPC owes a step, no `stop()` is in progress,
  no worker runs and no reactor is active;
* `stop_completes` — together: every `stop()` returns.
-/

namespace TInvest

open Lib.Transition

/-! ## The loop of `run` -/

/-- The steps a worker has left while `stopping_` is set. `once` counts them from the points of
`run_once()` on, which starts at `first`. -/
def Pc.remaining {κ : Type} (first : κ) (once : κ → ℕ) : Pc κ → ℕ
  | .connecting => once first + 1
  | .once k => once k
  | .disconnected _ => 4
  | .loopHead | .returned _ | .backoff _ => 3
  | .leaving => 2
  | .exiting => 1
  | .ended => 0

/-- The loop goes nowhere but out. -/
lemma Worker.remaining_of_step {κ η : Type} {opts : StreamOptions} {first : κ} {w : ℕ}
    {gotData : Bool} {worker worker' : Worker κ} {es : List (SessionEvent η)} (once : κ → ℕ)
    (h : worker.step opts first w true gotData = some (worker', es)) :
    worker'.pc.remaining first once + 1 ≤ worker.pc.remaining first once := by
  unfold Worker.step at h
  split at h <;> rename_i hpc <;> rw [hpc]
  case h_5 =>
    by_cases hreconnect : opts.reconnect
    · rw [if_pos hreconnect] at h
      cases h
      exact le_rfl
    · rw [if_neg hreconnect] at h
      cases h
      exact Nat.le_succ 3
  -- the other points have one successor
  all_goals cases h
  all_goals exact le_rfl

namespace MarketDataStream

variable {cfg : Config} {s s' : State} {a : Action} {c w w' : ℕ} {pc pc' : Pc Once}

/-! ## The bidirectional stream -/

/-- The steps left of the read side, the `OnReadDone` with `ok == false` included. -/
def Reading.remaining (h : MarketDataHandlers) : Reading → ℕ
  | .idle => 0
  | .pending => 1
  | .dispatching calls => calls.length + 2
  | .connected r => (dispatch h r).length + 3

/-- The callbacks left of a reactor. -/
def Reactor.remaining (h : MarketDataHandlers) (r : Reactor) : ℕ :=
  if r.finished then 0 else r.reading.remaining h + r.writes + 1

/-- The steps left from a point of `run_once()`, with the callbacks of its connection. -/
def State.onceRemaining (cfg : Config) (s : State) : Once → ℕ
  | .fill => 4
  | .startCall _ => 8
  | .publish c => (s.reactors c).remaining cfg.handlers + 5
  | .waiting c => (s.reactors c).remaining cfg.handlers + 4

/-- The calls of `RemoveHold` that are still to be made, decided or not. -/
def State.holdRemaining (s : State) : ℕ := s.releases.length + if s.holdReleased then 0 else 1

/-- The steps left of all threads and of gRPC, while `stopping_` is set. -/
def potential (cfg : Config) (s : State) (pc : Pc Once) : ℕ :=
  s.threads.stops.length + s.holdRemaining + pc.remaining .fill (s.onceRemaining cfg)

/-- What an action of the environment adds: a `stop()` has its return to make, a message its
handlers to run. -/
def Action.cost (cfg : Config) : Action → ℕ
  | .stop _ => 2
  | .send .. => 1
  | .onReadDone _ (some r) => (dispatch cfg.handlers r).length + 3
  | _ => 0

/-- An action that a thread inside the stream owes, or gRPC: of a cancelled call the completion of
each outstanding operation, and `OnDone`. No message is owed. -/
def Action.Owed (s : State) : Action → Prop
  | .start | .stop _ | .send .. | .onReadDone _ (some _) => False
  | .returnStop .. | .worker _ | .readStep _ | .removeHold .. => True
  | .onReadDone c none | .onWriteDone c _ | .onDone c _ => .tryCancel c ∈ s.trace

/-- `start()` is not called any more. -/
def NoStart (_ : State) (a : Action) : Prop := a ≠ .start

/-- Nobody owes a step. -/
def Settled (cfg : Config) (s : State) : Prop := ∀ a : Action, a.Owed s → step cfg s a = none

@[simp] lemma holdRemaining_releaseLocked (s : State) (caller : Caller) :
    (s.releaseLocked caller).holdRemaining = s.holdRemaining := by
  rcases releaseLocked_cases s caller with ⟨-, h⟩ | ⟨c, -, hflag, h⟩
  · rw [h]
  · rw [h]
    simp [State.holdRemaining, hflag]

@[simp] lemma reactors_releaseLocked (s : State) (caller : Caller) :
    (s.releaseLocked caller).reactors = s.reactors := by
  rcases releaseLocked_cases s caller with ⟨-, h⟩ | ⟨c, -, -, h⟩ <;> rw [h]

@[simp] lemma stopping_releaseLocked (s : State) (caller : Caller) :
    (s.releaseLocked caller).stopping = s.stopping := by
  rcases releaseLocked_cases s caller with ⟨-, h⟩ | ⟨c, -, -, h⟩ <;> rw [h]

@[simp] lemma stopping_maybeWriteLocked (s : State) :
    s.maybeWriteLocked.stopping = s.stopping := by
  rcases maybeWriteLocked_cases s with ⟨-, h⟩ | ⟨c, next, rest, -, -, -, h⟩ <;> rw [h]

@[simp] lemma reactors_stop (s : State) (t : ℕ) : (s.stop t).reactors = s.reactors := by
  rw [stop_eq]
  exact reactors_releaseLocked s (.stop t)

@[simp] lemma holdRemaining_stop (s : State) (t : ℕ) :
    (s.stop t).holdRemaining = s.holdRemaining := by
  rw [stop_eq]
  exact holdRemaining_releaseLocked s (.stop t)

lemma onceRemaining_congr (h : s'.reactors = s.reactors) :
    s'.onceRemaining cfg = s.onceRemaining cfg := by
  funext k
  cases k <;> simp only [State.onceRemaining, h]

/-- The reactor that gets callbacks is the one the worker has started. -/
lemma exists_remaining_of_active (h : ConnAt s pc) (hactive : s.Active c) :
    ∃ k, ∀ u : State, pc.remaining .fill (u.onceRemaining cfg)
      = (u.reactors c).remaining cfg.handlers + k := by
  rcases pc_of_active h hactive with rfl | rfl
  · exact ⟨5, fun _ => rfl⟩
  · exact ⟨4, fun _ => rfl⟩

/-- A call of `stop()` comes or goes. -/
lemma potential_of_stops {n : ℕ} (hreactors : s'.reactors = s.reactors)
    (hhold : s'.holdRemaining = s.holdRemaining)
    (hlt : s'.threads.stops.length + 1 ≤ s.threads.stops.length + n) :
    potential cfg s' pc + 1 ≤ potential cfg s pc + n := by
  unfold potential
  rw [onceRemaining_congr hreactors, hhold]
  omega

/-- A callback step of a reactor, by what it leaves to do. -/
lemma potential_of_callback {n : ℕ} (h : ConnAt s pc) (hactive : s.Active c)
    (hthreads : s'.threads = s.threads)
    (hlt : s'.holdRemaining + (s'.reactors c).remaining cfg.handlers + 1
      ≤ s.holdRemaining + (s.reactors c).remaining cfg.handlers + n) :
    potential cfg s' pc + 1 ≤ potential cfg s pc + n := by
  obtain ⟨k, hk⟩ : ∃ k, ∀ u : State, pc.remaining .fill (u.onceRemaining cfg)
      = (u.reactors c).remaining cfg.handlers + k := exists_remaining_of_active h hactive
  unfold potential
  rw [hk, hk, hthreads]
  omega

/-- A step of the read side. -/
lemma potential_of_reading {before after : Reading} {n : ℕ} (h : ConnAt s pc)
    (hactive : s.Active c) (hbefore : (s.reactors c).reading = before)
    (hthreads : s'.threads = s.threads) (hhold : s'.holdRemaining = s.holdRemaining)
    (hreactors : s'.reactors = Function.update s.reactors c { s.reactors c with reading := after })
    (hlt : after.remaining cfg.handlers + 1 ≤ before.remaining cfg.handlers + n) :
    potential cfg s' pc + 1 ≤ potential cfg s pc + n := by
  subst hbefore
  apply potential_of_callback h hactive hthreads
  rw [hhold]
  simp only [Reactor.remaining, hreactors, Function.update_self, hactive.2, Bool.false_eq_true,
    if_false]
  omega

/-- A reactor whose hold is decided to be removed writes no more. -/
lemma maybeWriteLocked_of_holdReleased (h : s.holdReleased = true) : s.maybeWriteLocked = s := by
  rcases maybeWriteLocked_cases s with ⟨-, heq⟩ | ⟨c, next, rest, hlive, -⟩
  · exact heq
  · exact absurd (hlive.2.2.symm.trans h) (by simp)

/-- **Every step of a stopping stream lowers the potential.** -/
lemma potential_of_move (hstop : s.stopping = true) (hat : ConnAt s pc)
    (hm : Move cfg s w pc a s' w' pc') (ha : a ≠ .start) :
    potential cfg s' pc' + 1 ≤ potential cfg s pc + a.cost cfg := by
  obtain ⟨g, hg, hconn, hrel⟩ := id hat
  cases hm with
  | launch | joinable => exact absurd rfl ha
  | stop t =>
    -- the call has its return to make
    apply potential_of_stops (reactors_stop s t) (holdRemaining_stop s t)
    rw [stop_threads]
    exact le_rfl
  | returnStop t target hmem =>
    have hlen := List.length_erase_add_one hmem
    exact potential_of_stops rfl rfl hlen.le
  | send request remember =>
    -- a stopping stream refuses it
    rcases send_cases s ⟨request, remember⟩ with ⟨-, h⟩ | ⟨hrun, -⟩ | ⟨c, hrun, -⟩
    · rw [h]
      exact le_rfl
    · exact absurd (hrun.symm.trans hstop) (by simp)
    · exact absurd (hrun.symm.trans hstop) (by simp)
  | run worker es _ hat hstep =>
    rw [hstop] at hstep
    have hlt := Worker.remaining_of_step (s.onceRemaining cfg) hstep
    rw [hat] at hlt
    exact Nat.add_le_add_left hlt (s.threads.stops.length + s.holdRemaining)
  | cancelled hpc =>
    subst hpc
    unfold State.fill
    rw [if_pos hstop]
    exact le_rfl
  | fill hpc hrun => exact absurd (hrun.symm.trans hstop) (by simp)
  | startCall c hpc =>
    subst hpc
    obtain rfl : g = .bound c := hg
    -- the reactor is new
    have hops : (s.reactors c).ops = Reactor.ops {} := hconn.own.2.2.2.2.1
    obtain ⟨-, -, hwrites, hfinished⟩ := ops_eq_iff.mp hops
    have hcalls : ((s.startCall w c).reactors c).remaining cfg.handlers = 2 := by
      simp [State.startCall, State.emit, State.setPc, State.setReactor, Reactor.remaining,
        Reading.remaining, hwrites, hfinished]
    show s.threads.stops.length + s.holdRemaining
      + (((s.startCall w c).reactors c).remaining cfg.handlers + 5) + 1 ≤ _
    rw [hcalls]
    exact le_rfl
  | publish c hpc =>
    subst hpc
    obtain rfl : g = .started c := hg
    have hflag : s.holdReleased = false := hconn.own.2.2.1
    have hstep : (s.publish w c).reactors = s.reactors ∧
        (s.publish w c).holdRemaining = s.holdRemaining := by
      rcases publish_cases s w c with ⟨-, h⟩ | ⟨-, -, -, h⟩ | ⟨-, hwhy, -⟩
      · rw [h]
        exact ⟨rfl, rfl⟩
      · -- the worker takes over the release
        rw [h, reactors_releaseLocked, holdRemaining_releaseLocked]
        exact ⟨rfl, rfl⟩
      · rcases hwhy with ⟨hrun, -⟩ | hset
        · exact absurd (hrun.symm.trans hstop) (by simp)
        · exact absurd (hflag.symm.trans hset) (by simp)
    unfold potential
    rw [onceRemaining_congr hstep.1, hstep.2, publish_threads]
    exact le_rfl
  | finishOnce c hpc hdone =>
    subst hpc
    show s.threads.stops.length + s.holdRemaining + 3 + 1
      ≤ s.threads.stops.length + s.holdRemaining
        + ((s.reactors c).remaining cfg.handlers + 4)
    omega
  | response c r hactive hreading =>
    -- its handlers, and `notify(connected)` if it is the first
    unfold State.handleResponse
    split <;> refine potential_of_reading hat hactive hreading (by rfl) (by rfl) (by rfl) ?_
    all_goals
      simp only [Reading.remaining, Action.cost]
      omega
  | readClosed c hactive hreading =>
    refine potential_of_reading hat hactive hreading (by simp [State.setReactor]) ?_
      (reactors_releaseLocked ..) le_rfl
    exact holdRemaining_releaseLocked _ (.read c)
  | connected c r hactive hreading =>
    exact potential_of_reading hat hactive hreading (by rfl) (by rfl) (by rfl) le_rfl
  | handled c call calls hactive hreading =>
    exact potential_of_reading hat hactive hreading (by rfl) (by rfl) (by rfl) le_rfl
  | startRead c hactive hreading =>
    exact potential_of_reading hat hactive hreading (by rfl) (by rfl) (by rfl) le_rfl
  | writeDone c ok hactive hwrites =>
    obtain rfl := hconn.stage_of_writes hactive hwrites
    have hset : s.holdReleased = true := hrel c hconn.reactor (Or.inr hstop)
    have hdone : ∀ u : State, u.reactors = Function.update s.reactors c
          { s.reactors c with writes := (s.reactors c).writes - 1 } →
        u.threads = s.threads → u.holdRemaining = s.holdRemaining →
        potential cfg u pc + 1 ≤ potential cfg s pc := by
      intro u hreactors hthreads hhold
      refine potential_of_callback (n := 0) hat hactive hthreads ?_
      rw [hhold]
      simp only [Reactor.remaining, hreactors, Function.update_self, hactive.2, Bool.false_eq_true,
        if_false]
      omega
    cases ok with
    | true =>
      unfold State.handleWriteDone
      rw [if_pos rfl, maybeWriteLocked_of_holdReleased]
      · exact hdone _ rfl rfl rfl
      · exact hset
    | false =>
      apply hdone
      · exact reactors_releaseLocked ..
      · simp [State.handleWriteDone, State.setReactor]
      · exact holdRemaining_releaseLocked _ (.write c)
  | done c status hactive hholds =>
    refine potential_of_callback hat hactive (by rfl) ?_
    show s.holdRemaining + _ + 1 ≤ _
    simp only [State.emit, State.handleDone, State.setReactor, Function.update_self,
      Reactor.remaining, hactive.2, Bool.false_eq_true, if_false, if_true]
    omega
  | removeHold caller c hmem =>
    obtain ⟨rfl, -⟩ := hconn.removeHold hmem
    refine potential_of_callback hat ((hconn.active c).mpr rfl) (by rfl) ?_
    have hlen := List.length_erase_add_one hmem
    simp only [State.holdRemaining, State.emit, State.setReactor, Function.update_self,
      Reactor.remaining]
    cases s.holdReleased <;> simp <;> omega

/-- **A stopping stream whose threads and reactors owe nothing has stopped.** -/
lemma quiet_of_settled (hcur : s.threads.Current w pc)
    (hat : ConnAt s pc) (hstop : s.stopping = true) (hset : Settled cfg s) :
    s.threads.stops = [] ∧ (∀ v, ¬ s.threads.Running v) ∧ ∀ c, ¬ s.Active c := by
  obtain ⟨g, hg, hconn, hrel⟩ := id hat
  -- every hold that was decided to be removed is removed
  have hreleases : s.releases = [] := by
    apply List.eq_nil_iff_forall_not_mem.mpr
    rintro ⟨caller, c⟩ hmem
    have hnone := hset (.removeHold caller c) trivial
    simp [step, State.removeHold, hmem] at hnone
  have hby : ∀ caller, s.ReleasedBy caller := by
    intro caller r hr
    rw [hreleases] at hr
    exact absurd hr (by simp)
  -- no reactor waits for a callback: the next one could be delivered
  have hactive : ∀ c, g = .published c → False := by
    intro c hc
    subst hc
    have hact : s.Active c := (hconn.active c).mpr rfl
    -- the `stop()` that set `stopping_` has cancelled the call
    have hcancelled : .tryCancel c ∈ s.trace := hconn.cancelled c rfl hstop
    have hholds : (s.reactors c).holds = 0 := by
      cases hconn.own.1 with
      | kept hflag =>
        exact absurd (hflag.symm.trans (hrel c hconn.reactor (Or.inr hstop))) (by simp)
      | decided _ _ hpending => exact absurd (hreleases.symm.trans hpending) (by simp)
      | removed _ _ hholds => exact hholds
    cases hreading : (s.reactors c).reading with
    | idle =>
      have hnone := hset (.onDone c .cancelled) hcancelled
      simp [step, State.onDone, hact, hholds, hreading, hby] at hnone
    | pending =>
      have hnone := hset (.onReadDone c none) hcancelled
      simp [step, State.onReadDone, hact, hreading] at hnone
    | connected r =>
      have hnone := hset (.readStep c) trivial
      simp [step, State.readStep, hact, hreading] at hnone
    | dispatching calls =>
      have hnone := hset (.readStep c) trivial
      cases calls <;> simp [step, State.readStep, hact, hreading] at hnone
  -- and no worker runs, since it could take its next step
  have hrun : ∀ v, ¬ s.threads.Running v := by
    intro v hv
    obtain ⟨rfl, rfl⟩ := hcur.of_running v hv
    have hnone := hset (.worker v) trivial
    cases hpc : (s.threads.workers v).pc with
    | once k =>
      cases k with
      | waiting c =>
        rw [hpc] at hg
        rcases hg with rfl | rfl
        · exact hactive c rfl
        · simp [step, State.workerStep, hpc, hconn.own.2, hby] at hnone
      | _ => simp [step, State.workerStep, hpc] at hnone
    | ended => exact hv hpc
    | disconnected status =>
      by_cases hreconnect : cfg.opts.reconnect <;>
        simp [step, State.workerStep, hpc, Worker.step, hreconnect] at hnone
    | _ => simp [step, State.workerStep, hpc, Worker.step] at hnone
  refine ⟨?_, hrun, ?_⟩
  · apply List.eq_nil_iff_forall_not_mem.mpr
    rintro ⟨t, target⟩ hmem
    have hnone := hset (.returnStop t target) trivial
    have hended : ∀ v ∈ target, (s.threads.workers v).pc = .ended :=
      fun v _ => not_not.mp (hrun v)
    simp only [step, State.returnStop] at hnone
    rw [if_pos ⟨hmem, hby _, hended⟩] at hnone
    exact absurd hnone (by simp)
  · -- an active reactor has a worker that publishes it or waits for it
    intro c hc
    rcases pc_of_active hat hc with rfl | rfl <;> exact absurd (hcur.of_none hrun) (by simp)

lemma NoStart.launchSafe (s : State) (a : Action) (h : NoStart s a) : LaunchSafe s a := by
  cases a <;> first | exact absurd rfl h | trivial

/-- A state on the way out, with the potential of its worker. -/
def Closing (cfg : Config) (s : State) (n : ℕ) : Prop :=
  Reachable (system cfg) LaunchSafe s ∧ s.stopping = true ∧
    ∃ w pc, s.threads.Current w pc ∧ potential cfg s pc = n

lemma stopping_of_move (hstop : s.stopping = true) (hm : Move cfg s w pc a s' w' pc')
    (ha : a ≠ .start) : s'.stopping = true := by
  cases hm with
  | launch | joinable => exact absurd rfl ha
  | stop t =>
    rw [stop_eq]
  | send request remember =>
    rcases send_cases s ⟨request, remember⟩ with ⟨-, h⟩ | ⟨hrun, -⟩ | ⟨c, hrun, -⟩
    · rw [h]
      exact hstop
    · exact absurd (hrun.symm.trans hstop) (by simp)
    · exact absurd (hrun.symm.trans hstop) (by simp)
  | cancelled hpc =>
    unfold State.fill
    rw [if_pos hstop]
    exact hstop
  | fill hpc hrun => exact absurd (hrun.symm.trans hstop) (by simp)
  | publish c hpc =>
    rcases publish_cases s w c with ⟨-, h⟩ | ⟨-, -, -, h⟩ | ⟨-, -, h⟩ <;> rw [h] <;>
      simpa [State.withReactor, State.setPc] using hstop
  | response c r =>
    unfold State.handleResponse
    split <;> exact hstop
  | readClosed c => simpa [State.handleReadClosed, State.setReactor] using hstop
  | writeDone c ok =>
    unfold State.handleWriteDone
    split <;> simpa [State.handleReadClosed, State.setReactor] using hstop
  | returnStop | run | startCall | finishOnce | connected | handled | startRead | done
  | removeHold => exact hstop

/-- As long as nobody calls `start()`, the steps from `s` on are bounded but for what the
environment adds, and where they end every `stop()` has returned. -/
def Finishes (cfg : Config) (s : State) : Prop :=
  ∃ n, ∀ as s', Execution (system cfg) NoStart s as s' →
    as.length ≤ n + (as.map (Action.cost cfg)).sum ∧
    (Settled cfg s' →
      s'.threads.stops = [] ∧ (∀ w, ¬ s'.threads.Running w) ∧ ∀ c, ¬ s'.Active c)

lemma finishes_of_stopping (h : Reachable (system cfg) LaunchSafe s) (hstop : s.stopping = true) :
    Finishes cfg s := by
  obtain ⟨hsingle, w, pc, hcur⟩ := single_of_reachable (fun _ _ hok => hok) h
  refine ⟨potential cfg s pc, ?_⟩
  intro as s' hexec
  have hstep : ∀ s a s' n, Closing cfg s n → NoStart s a → step cfg s a = some s' →
      ∃ m, m + 1 ≤ n + a.cost cfg ∧ Closing cfg s' m := by
    intro s a s' n ⟨hreach, hstop, w, pc, hcur, hn⟩ ha hs
    have hsingle := (single_of_reachable (fun _ _ hok => hok) hreach).1
    have hat := connAt_of_current (fun _ _ hok => hok) hreach hcur
    have hsafe := NoStart.launchSafe s a ha
    obtain ⟨w', pc', hm, -, hcur'⟩ := move_of_step hsingle hcur hsafe hs
    refine ⟨potential cfg s' pc', ?_, .step a hreach hsafe hs, stopping_of_move hstop hm ha, w',
      pc', hcur', rfl⟩
    rw [← hn]
    exact potential_of_move hstop hat hm ha
  obtain ⟨m, hm, hreach', hstop', w', pc', hcur', -⟩ :=
    hexec.length_le (Action.cost cfg) hstep ⟨h, hstop, w, pc, hcur, rfl⟩
  have hat' := connAt_of_current (fun _ _ hok => hok) hreach' hcur'
  exact ⟨by omega, quiet_of_settled hcur' hat' hstop'⟩

end MarketDataStream

namespace ServerStream

variable {Resp : Type} {cfg : Config Resp} {s s' : State Resp} {a : Action Resp}
  {c w w' : ℕ} {pc pc' : Pc Once}

/-! ## Server-side streams -/

/-- The steps left of the read side, the `OnReadDone` with `ok == false` included. -/
def Reading.remaining : Reading Resp → ℕ
  | .idle => 0
  | .pending => 1
  | .restart => 2
  | .data _ => 3
  | .connected _ => 4
  | .unset _ => 5

/-- The callbacks left of a reactor. -/
def Reactor.remaining (r : Reactor Resp) : ℕ := if r.finished then 0 else r.reading.remaining + 1

/-- The steps left from a point of `run_once()`, with the callbacks of its connection. -/
def State.onceRemaining (s : State Resp) : Once → ℕ
  | .reset => 5
  | .enter => 4
  | .startCall _ => 7
  | .waiting c => (s.reactors c).remaining + 4

/-- The steps left of all threads and of gRPC, while `stopping_` is set. -/
def potential (s : State Resp) (pc : Pc Once) : ℕ :=
  s.threads.stops.length + pc.remaining .reset s.onceRemaining

/-- What an action of the environment adds. -/
def Action.cost : Action Resp → ℕ
  | .stop _ => 2
  | .onReadDone _ (some _) => 5
  | _ => 0

/-- An action that a thread inside the stream owes, or gRPC: of a cancelled call the completion of
the outstanding read, and `OnDone`. No message is owed. -/
def Action.Owed (s : State Resp) : Action Resp → Prop
  | .start | .stop _ | .onReadDone _ (some _) => False
  | .returnStop .. | .worker _ | .readStep _ => True
  | .onReadDone c none | .onDone c _ => (s.reactors c).cancelled = true

/-- `start()` is not called any more. -/
def NoStart (_ : State Resp) (a : Action Resp) : Prop := a ≠ .start

/-- Nobody owes a step. -/
def Settled (cfg : Config Resp) (s : State Resp) : Prop :=
  ∀ a : Action Resp, a.Owed s → step cfg s a = none

lemma NoStart.launchSafe (s : State Resp) (a : Action Resp) (h : NoStart s a) :
    LaunchSafe s a := by
  cases a <;> first | exact absurd rfl h | trivial

/-- A change that leaves the callbacks of every reactor as they are. -/
lemma onceRemaining_congr
    (h : ∀ c, (s'.reactors c).remaining = (s.reactors c).remaining) :
    s'.onceRemaining = s.onceRemaining := by
  funext k
  cases k <;> simp only [State.onceRemaining, h]

lemma remaining_stop (s : State Resp) (t c : ℕ) :
    ((s.stop t).reactors c).remaining = (s.reactors c).remaining := by
  unfold State.stop
  dsimp only
  split
  · next c' _ =>
    by_cases hc : c = c'
    · simp [State.setReactor, hc, Reactor.remaining]
    · simp [State.setReactor, Function.update_of_ne hc]
  · rfl

lemma stopping_stop (s : State Resp) (t : ℕ) : (s.stop t).stopping = true := by
  unfold State.stop
  dsimp only
  split <;> rfl

/-- A callback step of the connection under way. -/
lemma potential_of_callback {n : ℕ} (hthreads : s'.threads = s.threads)
    (hlt : (s'.reactors c).remaining + 1 ≤ (s.reactors c).remaining + n) :
    potential s' (.once (.waiting c)) + 1 ≤ potential s (.once (.waiting c)) + n := by
  show s'.threads.stops.length + ((s'.reactors c).remaining + 4) + 1
    ≤ s.threads.stops.length + ((s.reactors c).remaining + 4) + n
  rw [hthreads]
  omega

/-- A read callback has one step less to make, unless it is one that a message starts. -/
lemma remaining_of_read {gotData : Bool} {reading : Reading Resp} {es : List (SessionEvent Resp)}
    (haction : a = .readStep c ∨ ∃ response, a = .onReadDone c response)
    (hread : ReadStep cfg c s.gotData (s.reactors c).reading gotData reading es)
    (hs : step cfg s a = some s') (hreading : (s'.reactors c).reading = reading) :
    reading.remaining + 1 ≤ (s.reactors c).reading.remaining + a.cost := by
  generalize hbefore : (s.reactors c).reading = before at hread
  cases hread with
  | response r =>
    rcases haction with rfl | ⟨response, rfl⟩
    · -- no step of `OnReadDone` is left while `StartRead` is outstanding
      simp [step, State.readStep, hbefore] at hs
    · cases response with
      | none =>
        -- without a message the read side is idle afterwards
        simp only [step, State.onReadDone, hbefore] at hs
        split at hs
        · cases hs
          cases hdata : s.gotData <;>
            simp [State.setReading, State.setReactor, hdata] at hreading
        · exact absurd hs (by simp)
      | some r' => cases s.gotData <;> simp [Reading.remaining, Action.cost]
  | closed | set | connected | data | restart => exact Nat.le_add_right ..

/-- **Every step of a stopping stream lowers the potential.** -/
lemma potential_of_move (hstop : s.stopping = true) (hat : ConnAt s pc)
    (hm : Move cfg s w pc a s' w' pc') (hs : step cfg s a = some s') (ha : a ≠ .start) :
    s'.stopping = true ∧ potential s' pc' + 1 ≤ potential s pc + a.cost := by
  cases hm with
  | launch | joinable => exact absurd rfl ha
  | stop t =>
    refine ⟨stopping_stop s t, ?_⟩
    unfold potential
    rw [onceRemaining_congr (remaining_stop s t), stop_threads]
    simp only [Threads.take, List.length_cons, Action.cost]
    omega
  | returnStop t target hmem =>
    refine ⟨hstop, ?_⟩
    have hlen : (s.threads.drop t target).stops.length + 1 = s.threads.stops.length :=
      List.length_erase_add_one hmem
    show (s.threads.drop t target).stops.length + pc.remaining .reset s.onceRemaining + 1
      ≤ s.threads.stops.length + pc.remaining .reset s.onceRemaining
    omega
  | run worker es _ hpc hstep =>
    refine ⟨hstop, ?_⟩
    rw [hstop] at hstep
    have hlt := Worker.remaining_of_step s.onceRemaining hstep
    rw [hpc] at hlt
    exact Nat.add_le_add_left hlt s.threads.stops.length
  | reset hpc =>
    subst hpc
    exact ⟨hstop, le_rfl⟩
  | cancelled hpc =>
    subst hpc
    unfold State.enter
    rw [if_pos hstop]
    exact ⟨hstop, le_rfl⟩
  | enter hpc hrun => exact absurd (hrun.symm.trans hstop) (by simp)
  | startCall c hpc =>
    subst hpc
    refine ⟨hstop, ?_⟩
    -- the call is new
    obtain ⟨-, hfinished⟩ := hat.fresh c (Or.inr rfl)
    have hcalls : ((s.startCall w c).reactors c).remaining = 2 := by
      simp [State.startCall, State.setPc, State.setReactor, Reactor.remaining, Reading.remaining,
        hfinished]
    show s.threads.stops.length + (((s.startCall w c).reactors c).remaining + 4) + 1 ≤ _
    rw [hcalls]
    exact le_rfl
  | finishOnce c hpc =>
    subst hpc
    refine ⟨hstop, ?_⟩
    show s.threads.stops.length + 3 + 1 ≤ s.threads.stops.length + ((s.reactors c).remaining + 4)
    omega
  | read c gotData reading es haction hactive hread =>
    obtain ⟨rfl, -⟩ := (hat.active c).mp hactive
    refine ⟨hstop, potential_of_callback (by rfl) ?_⟩
    have hreading : ((s.setReading c reading).reactors c).reading = reading := by
      simp [State.setReading, State.setReactor]
    have hlt := remaining_of_read haction hread hs hreading
    simp only [State.setReading, State.setReactor, Function.update_self, Reactor.remaining,
      hactive.2, Bool.false_eq_true, if_false]
    omega
  | done c status hactive =>
    obtain ⟨rfl, -⟩ := (hat.active c).mp hactive
    refine ⟨hstop, potential_of_callback (by rfl) ?_⟩
    simp only [State.setReactor, Function.update_self, Reactor.remaining, hactive.2,
      Bool.false_eq_true, if_false, if_true]
    omega

/-- `ctx_` is the one of the connection under way, and a stopping stream has cancelled its call. -/
structure CancelAt (s : State Resp) (pc : Pc Once) : Prop where
  ctx : ∀ c, pc = .once (.startCall c) ∨ pc = .once (.waiting c) → s.ctx = some c
  cancelled : ∀ c, s.ctx = some c → s.stopping = true → (s.reactors c).cancelled = true

/-- A step that cancels no call, and keeps the connection. -/
lemma CancelAt.congr (h : CancelAt s pc)
    (hpc : ∀ c, pc' = .once (.startCall c) ∨ pc' = .once (.waiting c) →
      pc = .once (.startCall c) ∨ pc = .once (.waiting c))
    (hctx : s'.ctx = s.ctx) (hstopping : s'.stopping = true → s.stopping = true)
    (hcancelled : ∀ c, (s'.reactors c).cancelled = (s.reactors c).cancelled) :
    CancelAt s' pc' := by
  refine ⟨?_, ?_⟩
  · intro c hc
    rw [hctx]
    exact h.ctx c (hpc c hc)
  · intro c hc hstop
    rw [hcancelled]
    exact h.cancelled c (hctx.symm.trans hc) (hstopping hstop)

lemma cancelled_setReactor {r : Reactor Resp} (hr : r.cancelled = (s.reactors c).cancelled)
    (c' : ℕ) : ((s.setReactor c r).reactors c').cancelled = (s.reactors c').cancelled := by
  by_cases hc : c' = c
  · simp [State.setReactor, hc, hr]
  · simp [State.setReactor, Function.update_of_ne hc]

/-- `stop()` cancels the call of `ctx_`. -/
lemma CancelAt.stop (h : CancelAt s pc) (t : ℕ) : CancelAt (s.stop t) pc := by
  unfold State.stop
  dsimp only
  split
  · next c hc =>
    refine ⟨h.ctx, ?_⟩
    intro c' hc' _
    obtain rfl : c = c' := Option.some.inj (hc.symm.trans hc')
    simp [State.setReactor]
  · next hnone =>
    refine ⟨h.ctx, ?_⟩
    intro c hc
    exact absurd (hnone.symm.trans hc) (by simp)

/-- **Every move keeps the context with its connection.** -/
lemma CancelAt.move (h : CancelAt s pc) (hm : Move cfg s w pc a s' w' pc') : CancelAt s' pc' := by
  cases hm with
  | launch => exact ⟨by simp, by simp⟩
  | joinable => exact h
  | stop t => exact h.stop t
  | returnStop t target => exact h.congr (fun _ => id) rfl id (fun _ => rfl)
  | run worker es _ _ hstep =>
    refine h.congr ?_ rfl id (fun _ => rfl)
    -- the loop enters `run_once()` before the context is made
    rintro c (hc | hc) <;> exact absurd (Worker.eq_first_of_step hstep hc) (by simp)
  | reset hpc => exact h.congr (by simp) rfl id (fun _ => rfl)
  | cancelled hpc hstopping =>
    unfold State.enter
    rw [if_pos hstopping]
    exact h.congr (by simp) rfl id (fun _ => rfl)
  | enter hpc hrun =>
    unfold State.enter
    rw [if_neg (by simp [hrun])]
    refine ⟨?_, ?_⟩
    · rintro c (hc | hc) <;> cases hc
      rfl
    · intro c _ hstop
      exact absurd (hrun.symm.trans hstop) (by simp)
  | startCall c hpc =>
    subst hpc
    refine h.congr ?_ rfl id (cancelled_setReactor rfl)
    rintro c' (hc | hc) <;> cases hc
    exact Or.inl rfl
  | finishOnce => exact ⟨by simp, by simp [State.finishOnce, State.setPc]⟩
  | read c gotData reading =>
    exact h.congr (fun _ => id) rfl id (cancelled_setReactor (c := c) rfl)
  | done c => exact h.congr (fun _ => id) rfl id (cancelled_setReactor (c := c) rfl)

lemma cancelAt_of_current {ok : State Resp → Action Resp → Prop}
    (hok : ∀ s a, ok s a → LaunchSafe s a) (h : Reachable (system cfg) ok s)
    (hcur : s.threads.Current w pc) : CancelAt s pc := by
  have hrun : ∃ w pc, s.threads.Current w pc ∧ CancelAt s pc := by
    apply invariant_of_move (J := fun s _ pc => CancelAt s pc) hok ⟨by simp, by simp⟩ ?_ h
    intro s a s' w pc w' pc' _ _ _ hm hcancel
    exact hcancel.move hm
  obtain ⟨w', pc', hcur', hcancel⟩ := hrun
  rwa [(hcur.pc_eq hcur').1]

/-- **A stopping stream whose threads and reactors owe nothing has stopped.** -/
lemma quiet_of_settled (hcur : s.threads.Current w pc) (hat : ConnAt s pc) (hcancel : CancelAt s pc)
    (hstop : s.stopping = true) (hset : Settled cfg s) :
    s.threads.stops = [] ∧ (∀ v, ¬ s.threads.Running v) ∧ ∀ c, ¬ s.Active c := by
  -- no reactor waits for a callback: the next one could be delivered
  have hactive : ∀ c, ¬ s.Active c := by
    intro c hact
    have hctx := hcancel.ctx c (Or.inr ((hat.active c).mp hact).1)
    have hcancelled := hcancel.cancelled c hctx hstop
    cases hreading : (s.reactors c).reading with
    | idle =>
      have hnone := hset (.onDone c .cancelled) hcancelled
      simp [step, State.onDone, hact, hreading] at hnone
    | pending =>
      have hnone := hset (.onReadDone c none) hcancelled
      simp [step, State.onReadDone, hact, hreading] at hnone
    | _ =>
      have hnone := hset (.readStep c) trivial
      simp [step, State.readStep, hact, hreading] at hnone
  -- and no worker runs, since it could take its next step
  have hrun : ∀ v, ¬ s.threads.Running v := by
    intro v hv
    obtain ⟨rfl, rfl⟩ := hcur.of_running v hv
    have hnone := hset (.worker v) trivial
    cases hpc : (s.threads.workers v).pc with
    | once k =>
      cases k with
      | waiting c =>
        have hdone : s.done = true := by
          by_contra hdone
          exact hactive c ((hat.active c).mpr ⟨hpc, by simpa using hdone⟩)
        simp [step, State.workerStep, hpc, hdone] at hnone
      | _ => simp [step, State.workerStep, hpc] at hnone
    | ended => exact hv hpc
    | disconnected status =>
      by_cases hreconnect : cfg.opts.reconnect <;>
        simp [step, State.workerStep, hpc, Worker.step, hreconnect] at hnone
    | _ => simp [step, State.workerStep, hpc, Worker.step] at hnone
  refine ⟨?_, hrun, hactive⟩
  apply List.eq_nil_iff_forall_not_mem.mpr
  rintro ⟨t, target⟩ hmem
  have hnone := hset (.returnStop t target) trivial
  have hended : ∀ v ∈ target, (s.threads.workers v).pc = .ended :=
    fun v _ => not_not.mp (hrun v)
  simp only [step, State.returnStop] at hnone
  rw [if_pos ⟨hmem, hended⟩] at hnone
  exact absurd hnone (by simp)

/-- A state on the way out, with the potential of its worker. -/
def Closing (cfg : Config Resp) (s : State Resp) (n : ℕ) : Prop :=
  Reachable (system cfg) LaunchSafe s ∧ s.stopping = true ∧
    ∃ w pc, s.threads.Current w pc ∧ potential s pc = n

/-- As long as nobody calls `start()`, the steps from `s` on are bounded but for what the
environment adds, and where they end every `stop()` has returned. -/
def Finishes (cfg : Config Resp) (s : State Resp) : Prop :=
  ∃ n, ∀ as s', Execution (system cfg) NoStart s as s' →
    as.length ≤ n + (as.map Action.cost).sum ∧
    (Settled cfg s' →
      s'.threads.stops = [] ∧ (∀ w, ¬ s'.threads.Running w) ∧ ∀ c, ¬ s'.Active c)

lemma finishes_of_stopping (h : Reachable (system cfg) LaunchSafe s) (hstop : s.stopping = true) :
    Finishes cfg s := by
  obtain ⟨-, w, pc, hcur⟩ := single_of_reachable (fun _ _ hok => hok) h
  refine ⟨potential s pc, ?_⟩
  intro as s' hexec
  have hstep : ∀ s a s' n, Closing cfg s n → NoStart s a → step cfg s a = some s' →
      ∃ m, m + 1 ≤ n + a.cost ∧ Closing cfg s' m := by
    intro s a s' n ⟨hreach, hstop, w, pc, hcur, hn⟩ ha hs
    have hsingle := (single_of_reachable (fun _ _ hok => hok) hreach).1
    have hat := connAt_of_current (fun _ _ hok => hok) hreach hcur
    have hsafe := NoStart.launchSafe s a ha
    obtain ⟨w', pc', hm, -, hcur'⟩ := move_of_step hsingle hcur hsafe hs
    obtain ⟨hstop', hlt⟩ := potential_of_move hstop hat hm hs ha
    exact ⟨potential s' pc', hn ▸ hlt, .step a hreach hsafe hs, hstop', w', pc', hcur', rfl⟩
  obtain ⟨m, hm, hreach', hstop', w', pc', hcur', -⟩ :=
    hexec.length_le Action.cost hstep ⟨h, hstop, w, pc, hcur, rfl⟩
  have hat' := connAt_of_current (fun _ _ hok => hok) hreach' hcur'
  have hcancel := cancelAt_of_current (fun _ _ hok => hok) hreach' hcur'
  refine ⟨by omega, ?_⟩
  intro hset
  exact quiet_of_settled hcur' hat' hcancel hstop' hset

end ServerStream

/-! ## Both streams -/

variable {Resp : Type} {mdCfg : MarketDataStream.Config} {ssCfg : ServerStream.Config Resp}
  {s : MarketDataStream.State} {u : ServerStream.State Resp}

/-- **Every `stop()` returns.** From any state of a safe run in which `stopping_` is set, and as
long as `start()` is not called again: every run is finite, whatever the interleaving, unless the
environment keeps calling `stop()` or `send()` or messages keep arriving; and a run that cannot go
on, because no thread inside the stream has a step left and gRPC owes no callback of a cancelled
call, has seen every `stop()` return, the worker end and `OnDone` delivered to the reactor. -/
theorem stop_completes (h : Reachable (MarketDataStream.system mdCfg) MarketDataStream.LaunchSafe s)
    (h' : Reachable (ServerStream.system ssCfg) ServerStream.LaunchSafe u)
    (hstop : s.stopping = true) (hstop' : u.stopping = true) :
    MarketDataStream.Finishes mdCfg s ∧ ServerStream.Finishes ssCfg u :=
  ⟨MarketDataStream.finishes_of_stopping h hstop, ServerStream.finishes_of_stopping h' hstop'⟩

/-- A `stop()` while the connection is up. -/
theorem stop_completes_connected :
    ∃ (s : MarketDataStream.State) (u : ServerStream.State ℕ),
      s.threads.stops = [(0, some 0)] ∧ u.threads.stops = [(0, some 0)] ∧
      MarketDataStream.Finishes MarketDataStream.demoConfig s ∧
      ServerStream.Finishes demoServerConfig u := by
  obtain ⟨s, hs, hps⟩ := exists_reachable_of_run
    (MarketDataStream.system MarketDataStream.demoConfig) MarketDataStream.Sequential
    (fun s => s.stopping && decide (s.threads.stops = [(0, some 0)]))
    (MarketDataStream.connectSteps ++ [.stop 0]) (by decide +kernel)
  obtain ⟨u, hu, hpu⟩ := exists_reachable_of_run
    (ServerStream.system demoServerConfig) ServerStream.Sequential
    (fun u => u.stopping && decide (u.threads.stops = [(0, some 0)]))
    [.start, .worker 0, .worker 0, .worker 0, .worker 0, .worker 0, .stop 0] (by decide +kernel)
  rw [Bool.and_eq_true, decide_eq_true_eq] at hps hpu
  have hboth := stop_completes (hs.mono MarketDataStream.Sequential.launchSafe)
    (hu.mono ServerStream.Sequential.launchSafe) hps.1 hpu.1
  exact ⟨s, u, hps.2, hpu.2, hboth.1, hboth.2⟩

end TInvest
