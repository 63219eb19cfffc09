import TInvest.Stream.Session

/-!
# Worker threads and the reconnect loop

What both streams share: the thread handle `worker_` with `start()` and `stop()`, and the
loop of `run()`. A step is one critical section, one call of user code, or the return from a
wait. `κ` is where a worker is inside `run_once()`, which the two streams write differently.

* `Threads.Single` — at most one worker runs, and it is `worker_` or the one a `stop()` in
  progress has taken over; a launch keeps it exactly when no such worker is left
  (`Threads.LaunchSafe`);
* `Worker.path_of_step` — a step of `run()` follows the session protocol.
-/

namespace TInvest

open Lib.Transition

/-! ## The loop of `run` -/

/-- Where a worker is in `run()`. -/
inductive Pc (κ : Type) where
  /-- before the check of `stopping_` at the head of the loop -/
  | loopHead
  /-- before `notify(connecting)` -/
  | connecting
  /-- in `run_once()` -/
  | once (k : κ)
  /-- `run_once()` has returned; before the second check of `stopping_` -/
  | returned (status : Status)
  /-- before `notify(disconnected)` -/
  | disconnected (status : Status)
  /-- in `cv_.wait_for` -/
  | backoff (delay : ℕ)
  /-- after the loop, before `notify(stopped)` -/
  | leaving
  /-- about to return -/
  | exiting
  | ended
deriving DecidableEq

/-- A thread of `run()`; `attempt` is its local variable. -/
structure Worker (κ : Type) where
  pc : Pc κ := .ended
  attempt : ℕ := 0

/-- The delay before the next attempt, where the product of the source does not overflow. -/
def backoffDelay (opts : StreamOptions) (attempt : ℕ) : ℕ :=
  let delay := opts.initialBackoff * (1 <<< min attempt 8)
  if delay > opts.maxBackoff then opts.maxBackoff else delay

/-- The error attached to `disconnected`. -/
def errorOf (status : Status) : Error :=
  { code := status.errorCode, message := status.errorMessage }

/-- A step of `run()` outside `run_once()`, which starts at `first`. -/
def Worker.step {κ η : Type} (opts : StreamOptions) (first : κ) (w : ℕ)
    (stopping gotData : Bool) (worker : Worker κ) : Option (Worker κ × List (SessionEvent η)) :=
  match worker.pc with
  | .loopHead => some ({ worker with pc := if stopping then .leaving else .connecting }, [])
  | .connecting =>
    some ({ worker with pc := .once first }, [.notified (.worker w) .connecting none])
  | .once _ => none
  | .returned status =>
    some ({ worker with pc := if stopping then .leaving else .disconnected status }, [])
  | .disconnected status =>
    let attempt := if gotData then 0 else worker.attempt
    let notified := .notified (.worker w) .disconnected (some (errorOf status))
    if opts.reconnect then
      some ({ pc := .backoff (backoffDelay opts attempt), attempt := attempt + 1 }, [notified])
    else some ({ pc := .leaving, attempt := attempt }, [notified])
  -- the wait ends when `stopping_` is set, and otherwise by its timeout
  | .backoff _ => some ({ worker with pc := if stopping then .leaving else .loopHead }, [])
  | .leaving => some ({ worker with pc := .exiting }, [.notified (.worker w) .stopped none])
  | .exiting => some ({ worker with pc := .ended }, [.ended w])
  | .ended => none

/-- The loop enters `run_once()` at its beginning. -/
lemma Worker.eq_first_of_step {κ η : Type} {opts : StreamOptions} {first k : κ} {w : ℕ}
    {stopping gotData : Bool} {worker worker' : Worker κ} {es : List (SessionEvent η)}
    (h : worker.step opts first w stopping gotData = some (worker', es))
    (hk : worker'.pc = .once k) : k = first := by
  unfold Worker.step at h
  split at h
  case h_2 =>
    cases h
    exact (Pc.once.inj hk).symm
  case h_5 =>
    by_cases hreconnect : opts.reconnect
    · rw [if_pos hreconnect] at h
      cases h
      exact absurd hk (by simp)
    · rw [if_neg hreconnect] at h
      cases h
      exact absurd hk (by simp)
  -- no other point goes on to `run_once()`
  all_goals cases h
  all_goals cases stopping <;> exact absurd hk (by simp)

/-- The phases of its session in which worker `w` may be at a point of `run()`. `inOnce` says
it for the points of `run_once()`. -/
def Pc.PhaseOk {κ : Type} (w : ℕ) (inOnce : κ → Phase → Prop) (pc : Pc κ) (p : Phase) : Prop :=
  match pc with
  | .loopHead | .connecting | .backoff _ => p = .between w
  | .once k => inOnce k p
  | .returned _ | .disconnected _ => p.Attempting w
  | .leaving => p.Open w
  | .exiting => p = .finishing w
  | .ended => p = .idle

/-- **The loop follows the session protocol**, provided `run_once()` starts in a connecting
phase and returns in one of its connection. -/
lemma Worker.path_of_step {κ η : Type} {opts : StreamOptions} {first : κ} {w : ℕ}
    {stopping gotData : Bool} {worker worker' : Worker κ} {es : List (SessionEvent η)}
    {inOnce : κ → Phase → Prop} {p : Phase} (hfirst : inOnce first (.connecting w))
    (h : worker.step opts first w stopping gotData = some (worker', es))
    (hp : worker.pc.PhaseOk w inOnce p) :
    ∃ p', Path Phase.Next p es p' ∧ worker'.pc.PhaseOk w inOnce p' := by
  unfold Worker.step at h
  split at h <;> rename_i hpc
  all_goals rw [hpc] at hp
  · -- loopHead
    cases h
    refine ⟨p, .nil p, ?_⟩
    obtain rfl : p = .between w := hp
    cases stopping <;> simp [Pc.PhaseOk]
  · -- connecting
    cases h
    obtain rfl : p = .between w := hp
    exact ⟨_, .cons (.connecting w) (.nil _), hfirst⟩
  · exact absurd h (by simp)
  · -- returned
    cases h
    refine ⟨p, .nil p, ?_⟩
    have hp : p.Attempting w := hp
    cases stopping
    · exact hp
    · exact hp.open
  · -- disconnected
    have hp : p.Attempting w := hp
    by_cases hreconnect : opts.reconnect
    · rw [if_pos hreconnect] at h
      cases h
      exact ⟨_, .cons (.disconnected w _ hp) (.nil _), rfl⟩
    · rw [if_neg hreconnect] at h
      cases h
      exact ⟨_, .cons (.disconnected w _ hp) (.nil _), Or.inl rfl⟩
  · -- backoff
    cases h
    refine ⟨p, .nil p, ?_⟩
    obtain rfl : p = .between w := hp
    cases stopping <;> simp [Pc.PhaseOk]
  · -- leaving
    cases h
    exact ⟨_, .cons (.stopped w (show p.Open w from hp)) (.nil _), rfl⟩
  · -- exiting
    cases h
    obtain rfl : p = .finishing w := hp
    exact ⟨_, .cons (.ended w) (.nil _), rfl⟩
  · exact absurd h (by simp)

/-! ## Threads -/

/-- `worker_`, the workers that were launched, and the `stop()` calls that have left their
critical section, by calling thread, each with the worker it has moved out of `worker_`. -/
structure Threads (κ : Type) where
  worker : Option ℕ := none
  nextWorker : ℕ := 0
  workers : ℕ → Worker κ := fun _ => {}
  stops : List (ℕ × Option ℕ) := []

namespace Threads

variable {κ : Type} (T : Threads κ)

/-- Worker `w` is executing `run()`. -/
def Running (w : ℕ) : Prop := (T.workers w).pc ≠ .ended

/-- `worker_ = std::thread([this] { run(); })`. -/
def launch : Threads κ :=
  { T with
    worker := some T.nextWorker
    nextWorker := T.nextWorker + 1
    workers := Function.update T.workers T.nextWorker { pc := .loopHead } }

/-- `t = std::move(worker_)` in a `stop()` of thread `t`. -/
def take (t : ℕ) : Threads κ := { T with worker := none, stops := (t, T.worker) :: T.stops }

/-- Whether the `stop()` of thread `t` is in progress can be looked up. -/
instance (t : ℕ) (target : Option ℕ) : Decidable ((t, target) ∈ T.stops) :=
  List.instDecidableMemOfLawfulBEq ..

/-- The `stop()` of thread `t` returns. -/
def drop (t : ℕ) (target : Option ℕ) : Threads κ := { T with stops := T.stops.erase (t, target) }

def setWorker (w : ℕ) (worker : Worker κ) : Threads κ :=
  { T with workers := Function.update T.workers w worker }

/-- At most one worker is executing `run()`. -/
def AtMostOne : Prop := ∀ w w', T.Running w → T.Running w' → w = w'

/-- If `start()` finds `worker_` empty, every worker that a `stop()` in progress has taken
over has ended. -/
def LaunchSafe : Prop :=
  T.worker = none → ∀ call ∈ T.stops, ∀ w ∈ call.2, (T.workers w).pc = .ended

/-- The worker that runs, if any, is `worker_` or the one a `stop()` in progress has taken
over. -/
structure Single : Prop where
  owned : ∀ w, T.Running w → T.worker = some w ∨ ∃ t, (t, some w) ∈ T.stops
  unique : T.AtMostOne
  known : ∀ w, T.Running w → w < T.nextWorker

variable {T}

lemma single_init : Single ({} : Threads κ) where
  owned _ h := absurd rfl h
  unique _ _ h := absurd rfl h
  known _ h := absurd rfl h

lemma launchSafe_of_stops (h : T.stops = []) : T.LaunchSafe := by
  intro _ call hcall
  rw [h] at hcall
  exact absurd hcall (by simp)

/-- A safe launch finds no worker running. -/
lemma Single.not_running (h : T.Single) (hworker : T.worker = none) (hsafe : T.LaunchSafe)
    (w : ℕ) : ¬ T.Running w := by
  intro hw
  rcases h.owned w hw with hw' | ⟨t, hstop⟩
  · rw [hworker] at hw'
    exact absurd hw' (by simp)
  · exact hw (hsafe hworker _ hstop w rfl)

@[simp] lemma running_setWorker {w v : ℕ} {worker : Worker κ} :
    (T.setWorker w worker).Running v ↔
      if v = w then worker.pc ≠ .ended else T.Running v := by
  unfold setWorker Running
  by_cases hv : v = w <;> simp [hv]

lemma running_launch {v : ℕ} :
    T.launch.Running v ↔ v = T.nextWorker ∨ T.Running v := by
  unfold launch Running
  by_cases hv : v = T.nextWorker <;> simp [hv]

/-- A safe launch keeps one worker. -/
lemma Single.launch (h : T.Single) (hworker : T.worker = none) (hsafe : T.LaunchSafe) :
    T.launch.Single := by
  -- no worker runs before, so the new one is the only one after
  have hnone := h.not_running hworker hsafe
  have honly : ∀ v, T.launch.Running v → v = T.nextWorker := by
    intro v hv
    exact (running_launch.mp hv).resolve_right (hnone v)
  refine ⟨?_, ?_, ?_⟩
  · intro w hw
    left
    rw [honly w hw]
    rfl
  · intro w w' hw hw'
    rw [honly w hw, honly w' hw']
  · intro w hw
    rw [honly w hw]
    exact Nat.lt_succ_self _

/-- A launch that is not safe makes a second worker. -/
lemma Single.atMostOne_launch_iff (h : T.Single) (hworker : T.worker = none) :
    T.launch.AtMostOne ↔ T.LaunchSafe := by
  constructor
  · intro hone _ call hcall w hw
    -- otherwise it runs beside the one just launched, whose number is new
    by_contra hrun
    have hrun' : T.launch.Running w := running_launch.mpr (Or.inr hrun)
    have hnew : T.launch.Running T.nextWorker := running_launch.mpr (Or.inl rfl)
    exact absurd (hone w T.nextWorker hrun' hnew) (h.known w hrun).ne
  · intro hsafe
    exact (h.launch hworker hsafe).unique

lemma Single.take (h : T.Single) (t : ℕ) : (T.take t).Single := by
  refine ⟨?_, h.unique, h.known⟩
  intro w hw
  -- `worker_` is empty now: its worker is the one this `stop()` joins
  right
  rcases h.owned w hw with hw | ⟨t', hw⟩
  · exact ⟨t, by simp [Threads.take, hw]⟩
  · exact ⟨t', List.mem_cons_of_mem _ hw⟩

/-- A `stop()` returns only after the worker it has taken over has ended. -/
lemma Single.drop (h : T.Single) {t : ℕ} {target : Option ℕ}
    (htarget : ∀ w ∈ target, ¬ T.Running w) : (T.drop t target).Single := by
  refine ⟨?_, h.unique, h.known⟩
  intro w hw
  rcases h.owned w hw with hworker | ⟨t', hstops⟩
  · exact Or.inl hworker
  · refine Or.inr ⟨t', ?_⟩
    apply (List.mem_erase_of_ne ?_).mpr hstops
    intro heq
    exact htarget w (by rw [← (Prod.mk.inj heq).2]; rfl) hw

/-- The worker that runs may take any step. -/
lemma Single.setWorker (h : T.Single) {w : ℕ} (hw : T.Running w) (worker : Worker κ) :
    (T.setWorker w worker).Single := by
  -- a step starts no worker
  have hsub : ∀ v, (T.setWorker w worker).Running v → T.Running v := by
    intro v hv
    rw [running_setWorker] at hv
    split at hv
    · next heq => rwa [heq]
    · exact hv
  refine ⟨?_, ?_, ?_⟩
  · intro v hv
    exact h.owned v (hsub v hv)
  · intro v v' hv hv'
    exact h.unique v v' (hsub v hv) (hsub v' hv')
  · intro v hv
    exact h.known v (hsub v hv)

variable (T) in
/-- The one worker that runs, if any, is `w`, at `pc`; if none runs, `pc` is `ended`. -/
structure Current (w : ℕ) (pc : Pc κ) : Prop where
  of_running : ∀ v, T.Running v → v = w ∧ (T.workers v).pc = pc
  of_none : (∀ v, ¬ T.Running v) → pc = .ended

lemma current_init : Current ({} : Threads κ) 0 .ended where
  of_running _ h := absurd rfl h
  of_none _ := rfl

/-- `Current` says where the running worker is. -/
lemma Current.pc_eq {w w' : ℕ} {pc pc' : Pc κ} (h : T.Current w pc) (h' : T.Current w' pc') :
    pc = pc' ∧ (pc = .ended ∨ w = w') := by
  by_cases hnone : ∀ v, ¬ T.Running v
  · rw [h.of_none hnone, h'.of_none hnone]
    exact ⟨rfl, Or.inl rfl⟩
  · rw [not_forall] at hnone
    obtain ⟨v, hv⟩ := hnone
    have hrun : T.Running v := not_not.mp hv
    obtain ⟨rfl, rfl⟩ := h.of_running v hrun
    obtain ⟨rfl, rfl⟩ := h'.of_running _ hrun
    exact ⟨rfl, Or.inr rfl⟩

lemma Current.take {w : ℕ} {pc : Pc κ} (h : T.Current w pc) (t : ℕ) : (T.take t).Current w pc :=
  ⟨h.of_running, h.of_none⟩

lemma Current.drop {w : ℕ} {pc : Pc κ} (h : T.Current w pc) (t : ℕ) (target : Option ℕ) :
    (T.drop t target).Current w pc :=
  ⟨h.of_running, h.of_none⟩

lemma Current.launch (h : T.Single) (hworker : T.worker = none) (hsafe : T.LaunchSafe) :
    T.launch.Current T.nextWorker .loopHead := by
  have hnone := h.not_running hworker hsafe
  refine ⟨?_, ?_⟩
  · intro v hv
    obtain rfl := (running_launch.mp hv).resolve_right (hnone v)
    exact ⟨rfl, by simp [Threads.launch]⟩
  · intro hno
    exact absurd (running_launch.mpr (Or.inl rfl)) (hno T.nextWorker)

lemma Current.setWorker (h : T.Single) {w : ℕ} (hw : T.Running w) (worker : Worker κ) :
    (T.setWorker w worker).Current w worker.pc := by
  refine ⟨?_, ?_⟩
  · intro v hv
    rw [running_setWorker] at hv
    by_cases hvw : v = w
    · refine ⟨hvw, ?_⟩
      simp [Threads.setWorker, hvw]
    · rw [if_neg hvw] at hv
      exact absurd (h.unique v w hv hw) hvw
  · intro hno
    by_contra hne
    exact hno w (running_setWorker.mpr (by rwa [if_pos rfl]))

/-! ## Sequential calls -/

variable (T) in
/-- At most one `stop()` is in progress, and `worker_` is empty while it is. -/
structure OneStop : Prop where
  le_one : T.stops.length ≤ 1
  taken : T.stops ≠ [] → T.worker = none

lemma oneStop_of_stops (h : T.stops = []) : T.OneStop :=
  ⟨by simp [h], fun hne => absurd h hne⟩

lemma oneStop_take (h : T.stops = []) (t : ℕ) : (T.take t).OneStop :=
  ⟨by simp [Threads.take, h], fun _ => rfl⟩

lemma OneStop.drop (h : T.OneStop) (t : ℕ) (target : Option ℕ) : (T.drop t target).OneStop := by
  refine ⟨(List.length_erase_le ..).trans h.le_one, ?_⟩
  intro hne
  apply h.taken
  intro hnil
  exact hne (by simp [Threads.drop, hnil])

lemma OneStop.setWorker (h : T.OneStop) (w : ℕ) (worker : Worker κ) :
    (T.setWorker w worker).OneStop :=
  ⟨h.le_one, h.taken⟩

/-- When the only `stop()` in progress returns, no worker runs. -/
lemma Current.ended_of_join {w t : ℕ} {pc : Pc κ} {target : Option ℕ} (h : T.Current w pc)
    (hsingle : T.Single) (hone : T.OneStop) (hmem : (t, target) ∈ T.stops)
    (hended : ∀ v ∈ target, ¬ T.Running v) : pc = .ended := by
  -- with one call in progress there is no other worker to join
  have hstops : T.stops = [(t, target)] := by
    obtain ⟨x, hx⟩ := List.length_eq_one_iff.mp
      (le_antisymm hone.le_one (List.length_pos_of_mem hmem))
    rw [hx, List.mem_singleton] at hmem
    rw [hx, hmem]
  apply h.of_none
  intro v hv
  rcases hsingle.owned v hv with hworker | ⟨t', hstop⟩
  · rw [hone.taken (List.ne_nil_of_mem hmem)] at hworker
    exact absurd hworker (by simp)
  · rw [hstops, List.mem_singleton] at hstop
    exact hended v (by rw [← (Prod.mk.inj hstop).2]; rfl) hv

/-! ## Runs -/

/-- **The run rule.** Where every admitted step is a move that keeps one worker, a property of the
state and of the running worker that holds at first and is kept by every move holds in every
reachable state. -/
theorem invariant_of_moves {σ α : Type} {M : System σ α} {ok : σ → α → Prop}
    (threads : σ → Threads κ) (R : σ → ℕ → Pc κ → α → σ → ℕ → Pc κ → Prop)
    {J : σ → ℕ → Pc κ → Prop} (hinit : threads M.init = {})
    (hmoves : ∀ s a s' w pc, (threads s).Single → (threads s).Current w pc → ok s a →
      M.step s a = some s' →
      ∃ w' pc', R s w pc a s' w' pc' ∧ (threads s').Single ∧ (threads s').Current w' pc')
    (h0 : J M.init 0 .ended)
    (hkeep : ∀ s a s' w pc w' pc', Reachable M ok s → (threads s).Current w pc → ok s a →
      R s w pc a s' w' pc' → J s w pc → J s' w' pc')
    {s : σ} (h : Reachable M ok s) :
    (threads s).Single ∧ ∃ w pc, (threads s).Current w pc ∧ J s w pc := by
  apply h.invariant
    (I := fun s => (threads s).Single ∧ ∃ w pc, (threads s).Current w pc ∧ J s w pc)
  · rw [hinit]
    exact ⟨single_init, 0, .ended, current_init, h0⟩
  · intro s a s' hreach ⟨hsingle, w, pc, hcur, hJ⟩ ha hs
    obtain ⟨w', pc', hm, hsingle', hcur'⟩ := hmoves s a s' w pc hsingle hcur ha hs
    exact ⟨hsingle', w', pc', hcur', hkeep s a s' w pc w' pc' hreach hcur ha hm hJ⟩

end Threads

end TInvest
