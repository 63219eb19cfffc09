import TInvest.Stream.ServerStream

/-!
# Runs of a server-side stream

The development of the market-data stream, for the smaller machine: what a step does
(`Move`), which connection is under way (`ConnAt`), and the phase of the session
(`PhaseAt`).

* `single_of_reachable` — at most one worker, while every launch is safe;
* `serverStream_wellBehaved` — the session protocol, while the calls are sequential.
-/

namespace TInvest
namespace ServerStream

open Lib.Transition

variable {Resp : Type} {cfg : Config Resp} {s s' : State Resp} {a : Action Resp}
  {c w w' : ℕ} {pc pc' : Pc Once} {p : Phase}

/-! ## Moves -/

/-- A step of a read callback, from `got_data_` and the read side before it to the ones after
it, with the user code it calls. -/
inductive ReadStep (cfg : Config Resp) (c : ℕ) :
    Bool → Reading Resp → Bool → Reading Resp → List (SessionEvent Resp) → Prop
  | response (gotData : Bool) (r : Resp) :
    ReadStep cfg c gotData .pending gotData (if gotData then .data r else .unset r) []
  | closed (gotData : Bool) : ReadStep cfg c gotData .pending gotData .idle []
  | set (gotData : Bool) (r : Resp) : ReadStep cfg c gotData (.unset r) true (.connected r) []
  | connected (gotData : Bool) (r : Resp) :
    ReadStep cfg c gotData (.connected r) gotData (.data r)
      [.notified (.reactor c) .connected none]
  | data (gotData : Bool) (r : Resp) :
    ReadStep cfg c gotData (.data r) gotData .restart (State.dataCalls cfg c r)
  | restart (gotData : Bool) : ReadStep cfg c gotData .restart gotData .pending []

/-- What one step does, where `w` is the worker that runs, at `pc`. -/
inductive Move (cfg : Config Resp) (s : State Resp) (w : ℕ) (pc : Pc Once) :
    Action Resp → State Resp → ℕ → Pc Once → Prop
  | launch (hpc : pc = .ended) :
    Move cfg s w pc .start
      { s with
        stopping := false
        threads := s.threads.launch
        trace := s.trace ++ [.launched s.threads.nextWorker] }
      s.threads.nextWorker .loopHead
  | joinable : Move cfg s w pc .start s w pc
  | stop (t : ℕ) : Move cfg s w pc (.stop t) (s.stop t) w pc
  | returnStop (t : ℕ) (target : Option ℕ) (hmem : (t, target) ∈ s.threads.stops)
    (hended : ∀ v ∈ target, ¬ s.threads.Running v) :
    Move cfg s w pc (.returnStop t target)
      { s with
        threads := s.threads.drop t target
        trace := s.trace ++ [.stopReturned] } w pc
  | run (worker : Worker Once) (es : List (SessionEvent Resp))
    (hrun : ∀ k, pc = .once k → False) (hpc : (s.threads.workers w).pc = pc)
    (hstep : (s.threads.workers w).step cfg.opts .reset w s.stopping s.gotData
      = some (worker, es)) :
    Move cfg s w pc (.worker w)
      { s with threads := s.threads.setWorker w worker, trace := s.trace ++ es } w worker.pc
  | reset (hpc : pc = .once .reset) :
    Move cfg s w pc (.worker w) ({ s with gotData := false }.setPc w (.once .enter)) w
      (.once .enter)
  | cancelled (hpc : pc = .once .enter) (hstopping : s.stopping = true) :
    Move cfg s w pc (.worker w) (s.enter w) w (.returned .cancelled)
  | enter (hpc : pc = .once .enter) (hstopping : s.stopping = false) :
    Move cfg s w pc (.worker w) (s.enter w) w (.once (.startCall s.nextConn))
  | startCall (c : ℕ) (hpc : pc = .once (.startCall c)) :
    Move cfg s w pc (.worker w) (s.startCall w c) w (.once (.waiting c))
  | finishOnce (c : ℕ) (hpc : pc = .once (.waiting c)) (hdone : s.done = true) :
    Move cfg s w pc (.worker w) (s.finishOnce w) w (.returned s.status)
  /-- A step of a read callback: the flag, the read side and the trace change. -/
  | read (c : ℕ) {a : Action Resp} (gotData : Bool) (reading : Reading Resp)
    (es : List (SessionEvent Resp))
    (haction : a = .readStep c ∨ ∃ response, a = .onReadDone c response) (hactive : s.Active c)
    (hread : ReadStep cfg c s.gotData (s.reactors c).reading gotData reading es) :
    Move cfg s w pc a
      { s.setReading c reading with gotData := gotData, trace := s.trace ++ es } w pc
  | done (c : ℕ) (status : Status) (hactive : s.Active c) :
    Move cfg s w pc (.onDone c status)
      { s.setReactor c { s.reactors c with finished := true } with
        status := status
        done := true } w pc

/-! ## Threads along a step -/

@[simp] lemma stop_threads (s : State Resp) (t : ℕ) : (s.stop t).threads = s.threads.take t := by
  unfold State.stop
  dsimp only
  split <;> rfl

/-- A step of a worker, by its point. -/
lemma move_of_workerStep (hcur : s.threads.Current w pc) {v : ℕ}
    (h : s.workerStep cfg v = some s') :
    v = w ∧ s.threads.Running w ∧ ∃ worker : Worker Once,
      Move cfg s w pc (.worker w) s' w worker.pc ∧
        s'.threads = s.threads.setWorker w worker := by
  have hrun : s.threads.Running v := by
    intro hended
    simp [State.workerStep, hended, Worker.step] at h
  obtain ⟨rfl, hpc⟩ := hcur.of_running v hrun
  refine ⟨rfl, hrun, ?_⟩
  -- every point of `run_once()` only replaces the worker's `pc`
  have hset : ∀ {pc' : Pc Once} {s'' : State Resp}, Move cfg s v pc (.worker v) s'' v pc' →
      s''.threads = (s.setPc v pc').threads → ∃ worker : Worker Once,
        Move cfg s v pc (.worker v) s'' v worker.pc ∧
          s''.threads = s.threads.setWorker v worker :=
    fun hmove heq => ⟨_, hmove, heq⟩
  unfold State.workerStep at h
  split at h
  · next hreset =>
    cases h
    rw [hpc] at hreset
    exact hset (.reset hreset) rfl
  · next henter =>
    cases h
    rw [hpc] at henter
    cases hstop : s.stopping with
    | true =>
      apply hset (.cancelled henter hstop)
      simp [State.enter, hstop]
    | false =>
      apply hset (.enter henter hstop)
      simp [State.enter, hstop, State.setPc]
  · next c hc =>
    cases h
    rw [hpc] at hc
    exact hset (.startCall c hc) rfl
  · next c hc =>
    split at h
    · next hdone =>
      cases h
      rw [hpc] at hc
      exact hset (.finishOnce c hc hdone) rfl
    · exact absurd h (by simp)
  · next hnot₁ hnot₂ hnot₃ hnot₄ =>
    obtain ⟨⟨worker, es⟩, hstep, rfl⟩ := Option.map_eq_some_iff.mp h
    refine ⟨worker, .run worker es ?_ hpc hstep, rfl⟩
    -- the branches before this one took every point of `run_once()`
    intro k hk
    rw [← hpc] at hk
    cases k with
    | reset => exact hnot₁ hk
    | enter => exact hnot₂ hk
    | startCall c => exact hnot₃ c hk
    | waiting c => exact hnot₄ c hk

/-- A step of a read callback is a move. -/
lemma move_of_read (haction : a = .readStep c ∨ ∃ response, a = .onReadDone c response)
    (hactive : s.Active c) {gotData : Bool} {before reading : Reading Resp}
    {es : List (SessionEvent Resp)} (hbefore : (s.reactors c).reading = before)
    (hread : ReadStep cfg c s.gotData before gotData reading es)
    (heq : s' = { s.setReading c reading with gotData := gotData, trace := s.trace ++ es }) :
    Move cfg s w pc a s' w pc ∧ s'.threads = s.threads := by
  subst heq hbefore
  exact ⟨.read c gotData reading es haction hactive hread, rfl⟩

lemma move_of_onReadDone {response : Option Resp} (h : s.onReadDone c response = some s') :
    Move cfg s w pc (.onReadDone c response) s' w pc ∧ s'.threads = s.threads := by
  unfold State.onReadDone at h
  split at h
  · next hpending =>
    split at h
    · next hactive =>
      cases response with
      | none =>
        cases h
        apply move_of_read (Or.inr ⟨_, rfl⟩) hactive hpending (.closed s.gotData)
        simp [State.setReading, State.setReactor]
      | some r =>
        cases h
        apply move_of_read (Or.inr ⟨_, rfl⟩) hactive hpending (.response s.gotData r)
        simp [State.setReading, State.setReactor]
    · exact absurd h (by simp)
  · exact absurd h (by simp)

lemma move_of_readStep (h : s.readStep cfg c = some s') :
    Move cfg s w pc (.readStep c) s' w pc ∧ s'.threads = s.threads := by
  unfold State.readStep at h
  split at h
  · next hactive =>
    split at h
    · next r hr =>
      cases h
      apply move_of_read (Or.inl rfl) hactive hr (.set s.gotData r)
      simp [State.setReading, State.setReactor]
    · next r hr =>
      cases h
      exact move_of_read (Or.inl rfl) hactive hr (.connected s.gotData r) rfl
    · next r hr =>
      cases h
      exact move_of_read (Or.inl rfl) hactive hr (.data s.gotData r) rfl
    · next hr =>
      cases h
      apply move_of_read (Or.inl rfl) hactive hr (.restart s.gotData)
      simp [State.setReading, State.setReactor]
    all_goals exact absurd h (by simp)
  · exact absurd h (by simp)

lemma move_of_onDone {status : Status} (h : s.onDone c status = some s') :
    Move cfg s w pc (.onDone c status) s' w pc ∧ s'.threads = s.threads := by
  unfold State.onDone at h
  split at h
  all_goals
    first
    | split at h
      · next hactive =>
        cases h
        exact ⟨.done c status hactive, rfl⟩
      · exact absurd h (by simp)
    | exact absurd h (by simp)

/-- **Inversion.** Every step is a move, and at most one worker runs after it. -/
lemma move_of_step (hsingle : s.threads.Single) (hcur : s.threads.Current w pc)
    (hok : LaunchSafe s a) (h : step cfg s a = some s') :
    ∃ w' pc', Move cfg s w pc a s' w' pc' ∧ s'.threads.Single ∧ s'.threads.Current w' pc' := by
  -- a step that leaves the threads alone
  have hkeep : Move cfg s w pc a s' w pc ∧ s'.threads = s.threads →
      ∃ w' pc', Move cfg s w pc a s' w' pc' ∧ s'.threads.Single ∧ s'.threads.Current w' pc' :=
    fun ⟨hmove, heq⟩ => ⟨w, pc, hmove, heq ▸ hsingle, heq ▸ hcur⟩
  cases a with
  | start =>
    cases h
    have hsafe : s.threads.LaunchSafe := hok
    unfold State.start at *
    cases hworker : s.threads.worker with
    | some v =>
      rw [hworker] at hkeep
      exact hkeep ⟨.joinable, rfl⟩
    | none =>
      refine ⟨_, _, .launch ?_, hsingle.launch hworker hsafe, .launch hsingle hworker hsafe⟩
      exact hcur.of_none (hsingle.not_running hworker hsafe)
  | stop t =>
    simp only [step] at h
    split at h
    · cases h
      refine ⟨w, pc, .stop t, ?_, ?_⟩
      · rw [stop_threads]
        exact hsingle.take t
      · rw [stop_threads]
        exact hcur.take t
    · exact absurd h (by simp)
  | returnStop t target =>
    simp only [step, State.returnStop] at h
    split at h
    · next hguard =>
      cases h
      have hended : ∀ v ∈ target, ¬ s.threads.Running v :=
        fun v hv hrun => hrun (hguard.2 v hv)
      exact ⟨w, pc, .returnStop t target hguard.1 hended, hsingle.drop hended,
        hcur.drop t target⟩
    · exact absurd h (by simp)
  | worker v =>
    obtain ⟨rfl, hrun, worker, hmove, hthreads⟩ := move_of_workerStep hcur h
    refine ⟨_, _, hmove, ?_, ?_⟩
    · rw [hthreads]
      exact hsingle.setWorker hrun worker
    · rw [hthreads]
      exact .setWorker hsingle hrun worker
  | onReadDone c response => exact hkeep (move_of_onReadDone h)
  | readStep c => exact hkeep (move_of_readStep h)
  | onDone c status => exact hkeep (move_of_onDone h)

/-! ## Runs -/

section Runs

variable {ok : State Resp → Action Resp → Prop}

/-- **At most one worker**, while every launch is safe. -/
lemma single_of_reachable (hok : ∀ s a, ok s a → LaunchSafe s a)
    (h : Reachable (system cfg) ok s) :
    s.threads.Single ∧ ∃ w pc, s.threads.Current w pc := by
  obtain ⟨hsingle, w, pc, hcur, -⟩ :=
    Threads.invariant_of_moves State.threads (Move cfg) (J := fun _ _ _ => True) rfl
      (fun s a _ _ _ hsingle hcur ha hs => move_of_step hsingle hcur (hok s a ha) hs)
      trivial (fun _ _ _ _ _ _ _ _ _ _ _ _ => trivial) h
  exact ⟨hsingle, w, pc, hcur⟩

/-- The run rule of this stream. -/
lemma invariant_of_move {J : State Resp → ℕ → Pc Once → Prop}
    (hok : ∀ s a, ok s a → LaunchSafe s a) (h0 : J {} 0 .ended)
    (hmove : ∀ s a s' w pc w' pc', Reachable (system cfg) ok s → s.threads.Current w pc →
      ok s a → Move cfg s w pc a s' w' pc' → J s w pc → J s' w' pc')
    (h : Reachable (system cfg) ok s) : ∃ w pc, s.threads.Current w pc ∧ J s w pc :=
  (Threads.invariant_of_moves State.threads (Move cfg) rfl
    (fun s a _ _ _ hsingle hcur ha hs => move_of_step hsingle hcur (hok s a ha) hs) h0 hmove h).2

end Runs

lemma Sequential.launchSafe (s : State Resp) (a : Action Resp) (h : Sequential s a) :
    LaunchSafe s a := by
  cases a <;> first | exact Threads.launchSafe_of_stops h | trivial

/-- Sequential calls: at most one `stop()` is in progress. -/
lemma oneStop_of_reachable (h : Reachable (system cfg) Sequential s) : s.threads.OneStop := by
  have hrun : ∃ w pc, s.threads.Current w pc ∧ s.threads.OneStop := by
    apply invariant_of_move (J := fun s _ _ => s.threads.OneStop) Sequential.launchSafe
      (Threads.oneStop_of_stops rfl) ?_ h
    intro s a s' w pc w' pc' _ _ hseq hm hone
    cases hm with
    | launch => exact Threads.oneStop_of_stops hseq
    | stop t =>
      rw [stop_threads]
      exact Threads.oneStop_take hseq t
    | returnStop t target => exact hone.drop t target
    | run worker => exact hone.setWorker w worker
    | cancelled | enter =>
      unfold State.enter
      split <;> exact hone.setWorker w _
    | reset | startCall | finishOnce => exact hone.setWorker w _
    | joinable | read | done => exact hone
  obtain ⟨w, pc, -, hone⟩ := hrun
  exact hone

/-! ## Connections -/

/-- Only the reactor of the connection under way gets callbacks, and only until `done_` is
set. -/
structure ConnAt (s : State Resp) (pc : Pc Once) : Prop where
  active : ∀ c, s.Active c ↔ pc = .once (.waiting c) ∧ s.done = false
  fresh : ∀ c, s.nextConn ≤ c ∨ pc = .once (.startCall c) →
    (s.reactors c).started = false ∧ (s.reactors c).finished = false
  known : ∀ c, pc = .once (.startCall c) ∨ pc = .once (.waiting c) → c < s.nextConn
  undone : ∀ c, pc = .once (.startCall c) → s.done = false

/-- A step that neither starts nor ends a call. -/
lemma ConnAt.congr (h : ConnAt s pc)
    (hlife : ∀ c, (s'.reactors c).started = (s.reactors c).started ∧
      (s'.reactors c).finished = (s.reactors c).finished)
    (hnext : s'.nextConn = s.nextConn) (hdone : s'.done = s.done)
    (hcall : ∀ c, pc' = .once (.startCall c) ↔ pc = .once (.startCall c))
    (hwait : ∀ c, pc' = .once (.waiting c) ↔ pc = .once (.waiting c)) : ConnAt s' pc' := by
  refine ⟨?_, ?_, ?_, ?_⟩
  · intro c
    unfold State.Active
    rw [(hlife c).1, (hlife c).2, hwait, hdone]
    exact h.active c
  · intro c hc
    rw [hnext, hcall] at hc
    rw [(hlife c).1, (hlife c).2]
    exact h.fresh c hc
  · intro c hc
    rw [hcall, hwait] at hc
    rw [hnext]
    exact h.known c hc
  · intro c hc
    rw [hdone]
    exact h.undone c ((hcall c).mp hc)

/-- A change of one reactor but not of its life. -/
lemma life_setReactor (s : State Resp) (c : ℕ) (cancelled : Bool) (reading : Reading Resp)
    (c' : ℕ) :
    ((s.setReactor c { s.reactors c with
        cancelled := cancelled, reading := reading }).reactors c').started
      = (s.reactors c').started ∧
    ((s.setReactor c { s.reactors c with
        cancelled := cancelled, reading := reading }).reactors c').finished
      = (s.reactors c').finished := by
  by_cases hc : c' = c
  · simp [State.setReactor, hc]
  · simp [State.setReactor, Function.update_of_ne hc]

lemma ConnAt.stop (h : ConnAt s pc) (t : ℕ) : ConnAt (s.stop t) pc := by
  unfold State.stop
  dsimp only
  split
  · next c _ =>
    exact h.congr (life_setReactor { s with stopping := true, threads := s.threads.take t } c true
      _) rfl rfl (fun _ => Iff.rfl) (fun _ => Iff.rfl)
  · exact h.congr (fun _ => ⟨rfl, rfl⟩) rfl rfl (fun _ => Iff.rfl) (fun _ => Iff.rfl)

lemma ConnAt.enter (h : ConnAt s (.once .enter)) (hrun : s.stopping = false) :
    ConnAt (s.enter w) (.once (.startCall s.nextConn)) := by
  unfold State.enter
  rw [if_neg (by simp [hrun])]
  refine ⟨?_, ?_, ?_, fun _ _ => rfl⟩
  · intro c
    have hold := h.active c
    simpa [State.Active, State.setPc] using hold
  · -- the new connection was unknown so far
    intro c hc
    apply h.fresh c
    left
    rcases hc with hc | hc
    · exact (Nat.le_succ _).trans hc
    · cases hc
      exact le_rfl
  · intro c hc
    rcases hc with hc | hc
    · cases hc
      exact Nat.lt_succ_self _
    · exact absurd hc (by simp)

lemma ConnAt.startCall (h : ConnAt s (.once (.startCall c))) :
    ConnAt (s.startCall w c) (.once (.waiting c)) := by
  have hknown := h.known c (Or.inl rfl)
  obtain ⟨-, hfinished⟩ := h.fresh c (Or.inr rfl)
  refine ⟨?_, ?_, ?_, ?_⟩
  · intro c'
    by_cases hc : c' = c
    · -- `done_` was reset when the connection was entered
      have hdone := h.undone c rfl
      simp [State.Active, State.startCall, State.setPc, State.setReactor, hc, hfinished, hdone]
    · have hold := h.active c'
      simpa [State.Active, State.startCall, State.setPc, State.setReactor,
        Function.update_of_ne hc, Ne.symm hc] using hold
  · intro c' hc'
    have hle : s.nextConn ≤ c' := hc'.resolve_right (by simp)
    have hne : c' ≠ c := (hknown.trans_le hle).ne'
    have hold := h.fresh c' (Or.inl hle)
    simpa [State.startCall, State.setPc, State.setReactor, Function.update_of_ne hne] using hold
  · intro c' hc'
    rcases hc' with hc' | hc'
    · exact absurd hc' (by simp)
    · cases hc'
      exact hknown
  · intro c' hc'
    exact absurd hc' (by simp)

lemma ConnAt.done (h : ConnAt s pc) (ha : s.Active c) (status : Status) :
    ConnAt { s.setReactor c { s.reactors c with finished := true } with
      status := status
      done := true } pc := by
  -- `OnDone` finds the worker in its wait
  obtain ⟨rfl, -⟩ := (h.active c).mp ha
  have hknown := h.known c (Or.inr rfl)
  refine ⟨?_, ?_, h.known, ?_⟩
  · intro c'
    by_cases hc : c' = c
    · simp [State.Active, State.setReactor, hc]
    · have hold := h.active c'
      simp only [State.Active] at hold
      simp only [State.Active, State.setReactor, Function.update_of_ne hc, hold]
      simp [Ne.symm hc]
  · intro c' hc'
    have hle : s.nextConn ≤ c' := hc'.resolve_right (by simp)
    have hne : c' ≠ c := (hknown.trans_le hle).ne'
    simpa [State.setReactor, Function.update_of_ne hne] using h.fresh c' (Or.inl hle)
  · intro c' hc'
    exact absurd hc' (by simp)

/-- **Every move keeps the connection invariant.** -/
lemma ConnAt.move (h : ConnAt s pc) (hm : Move cfg s w pc a s' w' pc') : ConnAt s' pc' := by
  cases hm with
  | launch hpc =>
    subst hpc
    exact h.congr (fun _ => ⟨rfl, rfl⟩) rfl rfl (by simp) (by simp)
  | joinable => exact h
  | stop t => exact h.stop t
  | returnStop t target =>
    exact h.congr (fun _ => ⟨rfl, rfl⟩) rfl rfl (fun _ => Iff.rfl) (fun _ => Iff.rfl)
  | run worker es hpc _ hstep =>
    -- outside `run_once()` no call is under way, before the step and after it
    have hout : ∀ k, k ≠ .reset → (worker.pc = .once k ↔ pc = .once k) := by
      intro k hk
      refine iff_of_false ?_ (hpc k)
      intro hwk
      exact hk (Worker.eq_first_of_step hstep hwk)
    exact h.congr (fun _ => ⟨rfl, rfl⟩) rfl rfl (fun c => hout _ (by simp))
      (fun c => hout _ (by simp))
  | reset hpc =>
    subst hpc
    exact h.congr (fun _ => ⟨rfl, rfl⟩) rfl rfl (by simp) (by simp)
  | cancelled hpc hstopping =>
    subst hpc
    unfold State.enter
    rw [if_pos hstopping]
    exact h.congr (fun _ => ⟨rfl, rfl⟩) rfl rfl (by simp) (by simp)
  | enter hpc hstopping =>
    subst hpc
    exact h.enter hstopping
  | startCall c hpc =>
    subst hpc
    exact h.startCall
  | finishOnce c hpc hdone =>
    subst hpc
    refine ⟨?_, ?_, by simp, by simp⟩
    · intro c'
      have hold := h.active c'
      rw [hdone] at hold
      simpa [State.Active, State.finishOnce, State.setPc] using hold
    · intro c' hc'
      exact h.fresh c' (Or.inl (hc'.resolve_right (by simp)))
  | read c gotData reading es =>
    exact h.congr (life_setReactor s c (s.reactors c).cancelled reading) rfl rfl
      (fun _ => Iff.rfl) (fun _ => Iff.rfl)
  | done c status hactive => exact h.done hactive status

lemma connAt_of_current {ok : State Resp → Action Resp → Prop}
    (hok : ∀ s a, ok s a → LaunchSafe s a) (h : Reachable (system cfg) ok s)
    (hcur : s.threads.Current w pc) : ConnAt s pc := by
  have hrun : ∃ w pc, s.threads.Current w pc ∧ ConnAt s pc := by
    apply invariant_of_move (J := fun s _ pc => ConnAt s pc) hok ?_ ?_ h
    · exact ⟨by simp [State.Active], by simp, by simp, by simp⟩
    · intro s a s' w pc w' pc' _ _ _ hm hconn
      exact hconn.move hm
  obtain ⟨w', pc', hcur', hconn⟩ := hrun
  rwa [(hcur.pc_eq hcur').1]

/-! ## Sessions -/

/-- The phase of connection `c` of worker `w`: `connected` is reported by the callback that
found `got_data_` unset, before it hands the response on. -/
inductive Progress (gotData : Bool) (reading : Reading Resp) (w c : ℕ) : Phase → Prop
  | waiting (hdata : gotData = false)
    (hr : reading = .idle ∨ reading = .pending ∨ ∃ r, reading = .unset r) :
    Progress gotData reading w c (.connecting w)
  | first (hdata : gotData = true) (r : Resp) (hr : reading = .connected r) :
    Progress gotData reading w c (.connecting w)
  | data (hdata : gotData = true) (hr : ∀ r, reading ≠ .unset r ∧ reading ≠ .connected r) :
    Progress gotData reading w c (.connected w c)

/-- The phases at the points of `run_once()` and of the reset before it. -/
def OncePhase (gotData : Bool) (reading : ℕ → Reading Resp) (w : ℕ) : Once → Phase → Prop
  | .reset, p => p = .connecting w
  | .enter, p | .startCall _, p => p = .connecting w ∧ gotData = false
  | .waiting c, p => Progress gotData (reading c) w c p

/-- The read sides of the reactors. -/
def State.readings (s : State Resp) (c : ℕ) : Reading Resp := (s.reactors c).reading

/-- The session has followed the protocol up to a phase that fits the running worker. -/
def PhaseAt (s : State Resp) (w : ℕ) (pc : Pc Once) : Prop :=
  ∃ p, Path Phase.Next .idle s.trace p ∧ pc.PhaseOk w (OncePhase s.gotData s.readings w) p

lemma Progress.attempting {gotData : Bool} {reading : Reading Resp}
    (h : Progress gotData reading w c p) : p.Attempting w := by
  cases h <;> simp

/-- The calls of one response, all in the connected phase. -/
lemma path_dataCalls (cfg : Config Resp) (w c : ℕ) (r : Resp) :
    Path Phase.Next (.connected w c) (State.dataCalls cfg c r) (.connected w c) := by
  unfold State.dataCalls
  split
  · exact .nil _
  · split
    · exact .cons (.handled w c r) (.nil _)
    · exact .nil _

/-- A read callback follows the protocol. -/
lemma Progress.read {gotData gotData' : Bool} {reading reading' : Reading Resp}
    {es : List (SessionEvent Resp)} (h : Progress gotData reading w c p)
    (hread : ReadStep cfg c gotData reading gotData' reading' es) :
    ∃ p', Path Phase.Next p es p' ∧ Progress gotData' reading' w c p' := by
  cases hread with
  | response r =>
    refine ⟨p, .nil _, ?_⟩
    cases h with
    | waiting hdata => exact .waiting hdata (by simp [hdata])
    | first _ r' hr' => exact absurd hr' (by simp)
    | data hdata => exact .data hdata (by simp [hdata])
  | closed =>
    refine ⟨p, .nil _, ?_⟩
    cases h with
    | waiting hdata => exact .waiting hdata (Or.inl rfl)
    | first _ r' hr' => exact absurd hr' (by simp)
    | data hdata => exact .data hdata (by simp)
  | set r =>
    -- only the callback that found the flag unset gets here
    refine ⟨p, .nil _, ?_⟩
    cases h with
    | waiting => exact .first rfl r rfl
    | first _ r' hr' => exact absurd hr' (by simp)
    | data _ hr => exact absurd rfl (hr r).1
  | connected r =>
    cases h with
    | waiting _ hr => exact absurd hr (by simp)
    | first hdata => exact ⟨_, .cons (.connected w c) (.nil _), .data hdata (by simp)⟩
    | data _ hr => exact absurd rfl (hr r).2
  | data r =>
    cases h with
    | waiting _ hr => exact absurd hr (by simp)
    | first _ r' hr' => exact absurd hr' (by simp)
    | data hdata => exact ⟨_, path_dataCalls cfg w c r, .data hdata (by simp)⟩
  | restart =>
    refine ⟨p, .nil _, ?_⟩
    cases h with
    | waiting _ hr => exact absurd hr (by simp)
    | first _ r' hr' => exact absurd hr' (by simp)
    | data hdata => exact .data hdata (by simp)

/-- A step the user does not see. -/
lemma PhaseAt.unseen (h : PhaseAt s w pc) (hdata : s'.gotData = s.gotData)
    (hreadings : s'.readings = s.readings) (htrace : s'.trace = s.trace) : PhaseAt s' w pc := by
  obtain ⟨p, hpath, hok⟩ := h
  refine ⟨p, ?_, ?_⟩
  · rw [htrace]
    exact hpath
  · rw [hdata, hreadings]
    exact hok

/-- A change of one reactor that keeps its read side. -/
lemma readings_setReactor (s : State Resp) (c : ℕ) (cancelled finished : Bool) :
    (s.setReactor c { s.reactors c with
      cancelled := cancelled, finished := finished }).readings = s.readings := by
  funext c'
  by_cases hc : c' = c
  · simp [State.readings, State.setReactor, hc]
  · simp [State.readings, State.setReactor, Function.update_of_ne hc]

lemma PhaseAt.stop (h : PhaseAt s w pc) (t : ℕ) : PhaseAt (s.stop t) w pc := by
  unfold State.stop
  dsimp only
  split
  · next c _ =>
    refine h.unseen rfl ?_ rfl
    exact readings_setReactor { s with stopping := true, threads := s.threads.take t } c true _
  · exact h.unseen rfl rfl rfl

/-- **Every move follows the session protocol**; a `stop()` returns when no worker runs. -/
lemma PhaseAt.move (h : PhaseAt s w pc) (hconn : ConnAt s pc)
    (hjoin : ∀ t target, a = .returnStop t target → pc = .ended)
    (hm : Move cfg s w pc a s' w' pc') : PhaseAt s' w' pc' := by
  cases hm with
  | launch hpc =>
    obtain ⟨p, hpath, hok⟩ := h
    subst hpc
    obtain rfl : p = .idle := hok
    exact ⟨.between s.threads.nextWorker, hpath.concat (.launched _), rfl⟩
  | joinable => exact h
  | stop t => exact h.stop t
  | returnStop t target =>
    obtain ⟨p, hpath, hok⟩ := h
    obtain rfl := hjoin t target rfl
    obtain rfl : p = .idle := hok
    exact ⟨.idle, hpath.concat .stopReturned, rfl⟩
  | run worker es _ hat hstep =>
    obtain ⟨p, hpath, hok⟩ := h
    rw [← hat] at hok
    -- `got_data_` is reset right after `notify(connecting)`
    have hfirst : OncePhase s.gotData s.readings w .reset (.connecting w) := rfl
    obtain ⟨p', hes, hok'⟩ := Worker.path_of_step hfirst hstep hok
    exact ⟨p', path_append_iff.mpr ⟨p, hpath, hes⟩, hok'⟩
  | reset hpc =>
    subst hpc
    obtain ⟨p, hpath, hok⟩ := h
    exact ⟨p, hpath, hok, rfl⟩
  | cancelled hpc hstopping =>
    subst hpc
    obtain ⟨p, hpath, rfl, -⟩ := h
    unfold State.enter
    rw [if_pos hstopping]
    exact ⟨.connecting w, hpath, Or.inl rfl⟩
  | enter hpc hstopping =>
    subst hpc
    obtain ⟨p, hpath, rfl, hdata⟩ := h
    unfold State.enter
    rw [if_neg (by simp [hstopping])]
    exact ⟨.connecting w, hpath, rfl, hdata⟩
  | startCall c hpc =>
    subst hpc
    obtain ⟨p, hpath, rfl, hdata⟩ := h
    refine ⟨.connecting w, hpath, .waiting hdata (Or.inr (Or.inl ?_))⟩
    simp [State.startCall, State.setPc, State.setReactor, State.readings]
  | finishOnce c hpc =>
    subst hpc
    obtain ⟨p, hpath, hok⟩ := h
    exact ⟨p, hpath, Progress.attempting hok⟩
  | read c gotData reading es _ hactive hread =>
    -- the callback belongs to the connection the worker waits for
    obtain ⟨rfl, -⟩ := (hconn.active c).mp hactive
    obtain ⟨p, hpath, hok⟩ := h
    obtain ⟨p', hes, hok'⟩ := Progress.read hok hread
    refine ⟨p', path_append_iff.mpr ⟨p, hpath, hes⟩, ?_⟩
    simpa [Pc.PhaseOk, OncePhase, State.readings, State.setReading, State.setReactor] using hok'
  | done c status =>
    refine h.unseen rfl ?_ rfl
    exact readings_setReactor s c (s.reactors c).cancelled true

/-- **A server-side stream is well behaved.** -/
lemma serverStream_wellBehaved (h : Reachable (system cfg) Sequential s) :
    WellBehaved s.trace := by
  have hphase : ∃ w pc, s.threads.Current w pc ∧ PhaseAt s w pc := by
    apply invariant_of_move (J := PhaseAt) Sequential.launchSafe ⟨.idle, .nil _, rfl⟩ ?_ h
    intro s a s' w pc w' pc' hreach hcur _ hm hphase
    apply hphase.move (connAt_of_current Sequential.launchSafe hreach hcur) ?_ hm
    -- the only `stop()` in progress has joined the only worker
    intro t target hreturn
    subst hreturn
    cases hm with
    | returnStop _ _ hmem hended =>
      exact hcur.ended_of_join (single_of_reachable Sequential.launchSafe hreach).1
        (oneStop_of_reachable hreach) hmem hended
    | read c gotData reading es haction =>
      rcases haction with haction | ⟨response, haction⟩ <;> exact absurd haction (by simp)
  obtain ⟨w, pc, -, p, hpath, -⟩ := hphase
  exact wellBehaved_of_path hpath

end ServerStream
end TInvest
