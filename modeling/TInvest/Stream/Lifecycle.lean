import TInvest.Stream.MarketDataSession
import TInvest.Stream.ServerStreamTheorems

/-!
# Workers and sessions of both streams

`MarketDataStream` and `ServerStream` share the life cycle of their worker and the protocol
of their notifications.

* `single_worker_iff_launchSafe` — at most one worker runs exactly as long as no `start()`
  launches one beside a worker that a `stop()` in progress is joining;
* `second_worker` — which nothing in either class prevents;
* `sessions_wellBehaved` — with sequential calls both follow the session protocol.
-/

namespace TInvest

open Lib.Transition

variable {Resp : Type} {mdCfg : MarketDataStream.Config} {ssCfg : ServerStream.Config Resp}
  {s : MarketDataStream.State} {u : ServerStream.State Resp}

/-! ## Single worker -/

/-- **Single worker.** In every run of safe launches at most one thread executes `run()`, and
the next `start()` keeps it so exactly when it is safe: when it finds `worker_` joinable, or
every worker that a `stop()` in progress has taken over has left `run()`. -/
theorem single_worker_iff_launchSafe
    (h : Reachable (MarketDataStream.system mdCfg) MarketDataStream.LaunchSafe s)
    (h' : Reachable (ServerStream.system ssCfg) ServerStream.LaunchSafe u) :
    (s.threads.AtMostOne ∧ (s.start.threads.AtMostOne ↔ s.threads.LaunchSafe)) ∧
      (u.threads.AtMostOne ∧ (u.start.threads.AtMostOne ↔ u.threads.LaunchSafe)) := by
  have hs := (MarketDataStream.single_of_reachable (fun _ _ hok => hok) h).1
  have hu := (ServerStream.single_of_reachable (fun _ _ hok => hok) h').1
  refine ⟨⟨hs.unique, ?_⟩, hu.unique, ?_⟩
  · unfold MarketDataStream.State.start
    cases hworker : s.threads.worker with
    | some w =>
      -- `worker_` is joinable: nothing is launched
      exact iff_of_true hs.unique fun hnone => absurd (hworker.symm.trans hnone) (by simp)
    | none => exact hs.atMostOne_launch_iff hworker
  · unfold ServerStream.State.start
    cases hworker : u.threads.worker with
    | some w =>
      exact iff_of_true hu.unique fun hnone => absurd (hworker.symm.trans hnone) (by simp)
    | none => exact hu.atMostOne_launch_iff hworker

/-- A server-side stream of numbers that are never pings. -/
def demoServerConfig : ServerStream.Config ℕ := {}

/-- A restart after a `stop()` that has returned. -/
theorem single_worker_after_restart :
    ∃ (s : MarketDataStream.State) (u : ServerStream.State ℕ),
      Reachable (MarketDataStream.system MarketDataStream.demoConfig)
        MarketDataStream.LaunchSafe s ∧
      Reachable (ServerStream.system demoServerConfig) ServerStream.LaunchSafe u ∧
      s.threads.worker = some 1 ∧ u.threads.worker = some 1 ∧
      s.threads.AtMostOne ∧ u.threads.AtMostOne := by
  obtain ⟨s, hs, hps⟩ := exists_reachable_of_run
    (MarketDataStream.system MarketDataStream.demoConfig) MarketDataStream.Sequential
    (fun s => s.threads.worker == some 1)
    [.start, .stop 0, .worker 0, .worker 0, .worker 0, .returnStop 0 (some 0), .start]
    (by decide +kernel)
  obtain ⟨u, hu, hpu⟩ := exists_reachable_of_run
    (ServerStream.system demoServerConfig) ServerStream.Sequential
    (fun u => u.threads.worker == some 1)
    [.start, .stop 0, .worker 0, .worker 0, .worker 0, .returnStop 0 (some 0), .start]
    (by decide +kernel)
  rw [beq_iff_eq] at hps hpu
  have hs' := hs.mono MarketDataStream.Sequential.launchSafe
  have hu' := hu.mono ServerStream.Sequential.launchSafe
  have hone := single_worker_iff_launchSafe hs' hu'
  exact ⟨s, u, hs', hu', hps, hpu, hone.1.1, hone.2.1⟩

/-- A `start()` between the critical section and the join of a `stop()` launches a second
worker beside the first. -/
theorem second_worker :
    ¬ (∀ (cfg : MarketDataStream.Config) (s : MarketDataStream.State),
      Reachable (MarketDataStream.system cfg) MarketDataStream.AnyOrder s →
        s.threads.AtMostOne) ∧
    ¬ (∀ (cfg : ServerStream.Config ℕ) (u : ServerStream.State ℕ),
      Reachable (ServerStream.system cfg) ServerStream.AnyOrder u → u.threads.AtMostOne) := by
  -- the first worker has passed the loop head when `stop()` takes it over
  constructor
  · intro hall
    obtain ⟨s, hreach, hp⟩ := exists_reachable_of_run
      (MarketDataStream.system MarketDataStream.demoConfig) MarketDataStream.AnyOrder
      (fun s => decide ((s.threads.workers 0).pc ≠ .ended) &&
        decide ((s.threads.workers 1).pc ≠ .ended))
      [.start, .worker 0, .stop 0, .start] (by decide +kernel)
    rw [Bool.and_eq_true, decide_eq_true_eq, decide_eq_true_eq] at hp
    exact absurd (hall _ s hreach 0 1 hp.1 hp.2) (by simp)
  · intro hall
    obtain ⟨u, hreach, hp⟩ := exists_reachable_of_run
      (ServerStream.system demoServerConfig) ServerStream.AnyOrder
      (fun u => decide ((u.threads.workers 0).pc ≠ .ended) &&
        decide ((u.threads.workers 1).pc ≠ .ended))
      [.start, .worker 0, .stop 0, .start] (by decide +kernel)
    rw [Bool.and_eq_true, decide_eq_true_eq, decide_eq_true_eq] at hp
    exact absurd (hall _ u hreach 0 1 hp.1 hp.2) (by simp)

/-! ## Sessions -/

/-- **Both streams follow the session protocol** while `start()` and `stop()` are called one
after the other: the notifications of a session are a session word, errors come with exactly
the `disconnected` ones, data handlers run after the `connected` of their own connection and
before any later notification, and no user code runs from the return of a `stop()` to the next
launch. -/
theorem sessions_wellBehaved
    (h : Reachable (MarketDataStream.system mdCfg) MarketDataStream.Sequential s)
    (h' : Reachable (ServerStream.system ssCfg) ServerStream.Sequential u) :
    WellBehaved (MarketDataStream.sessionTrace s.trace) ∧ WellBehaved u.trace :=
  ⟨MarketDataStream.marketData_wellBehaved h, ServerStream.serverStream_wellBehaved h'⟩

/-- A session with one response on each stream, up to the return of `stop()`. -/
theorem sessions_wellBehaved_one_response :
    ∃ (s : MarketDataStream.State) (u : ServerStream.State ℕ),
      Reachable (MarketDataStream.system MarketDataStream.demoConfig)
        MarketDataStream.Sequential s ∧
      Reachable (ServerStream.system demoServerConfig) ServerStream.Sequential u ∧
      notifications (MarketDataStream.sessionTrace s.trace)
        = [.connecting, .connected, .stopped] ∧
      notifications u.trace = [.connecting, .connected, .stopped] ∧
      WellBehaved (MarketDataStream.sessionTrace s.trace) ∧ WellBehaved u.trace := by
  obtain ⟨s, hs, hps⟩ := exists_reachable_of_run
    (MarketDataStream.system MarketDataStream.demoConfig) MarketDataStream.Sequential
    (fun s => decide (notifications (MarketDataStream.sessionTrace s.trace)
      = [.connecting, .connected, .stopped]))
    (MarketDataStream.connectSteps ++
      [.onReadDone 0 (some .candle), .readStep 0, .readStep 0, .readStep 0, .readStep 0, .stop 0,
        .onReadDone 0 none, .removeHold (.stop 0) 0, .onDone 0 .cancelled, .worker 0, .worker 0,
        .worker 0, .worker 0, .returnStop 0 (some 0)])
    (by decide +kernel)
  obtain ⟨u, hu, hpu⟩ := exists_reachable_of_run
    (ServerStream.system demoServerConfig) ServerStream.Sequential
    (fun u => decide (notifications u.trace = [.connecting, .connected, .stopped]))
    [.start, .worker 0, .worker 0, .worker 0, .worker 0, .worker 0, .onReadDone 0 (some 7),
      .readStep 0, .readStep 0, .readStep 0, .readStep 0, .stop 0, .onReadDone 0 none,
      .onDone 0 .cancelled, .worker 0, .worker 0, .worker 0, .worker 0, .returnStop 0 (some 0)]
    (by decide +kernel)
  rw [decide_eq_true_eq] at hps hpu
  have hboth := sessions_wellBehaved hs hu
  exact ⟨s, u, hs, hu, hps, hpu, hboth.1, hboth.2⟩

end TInvest
