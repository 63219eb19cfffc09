import TInvest.Stream.Connection

/-!
# Sessions of the market-data stream

The market-data stream follows the session protocol, while neither `start()` nor `stop()` is
called beside a `stop()` in progress.

* `Progress` — the phase a connection is in, by `got_data_` and its read side;
* `phaseAt_of_reachable` — the phase of the session at every point of the worker that runs;
* `marketData_wellBehaved` — so every trace is well behaved.
-/

namespace TInvest
namespace MarketDataStream

open Pb
open Lib.Transition

variable {cfg : Config} {s s' : State} {a : Action} {c w w' : ℕ} {pc pc' : Pc Once} {p : Phase}

/-- What the user observed. -/
def sessionTrace (trace : List Event) : List (SessionEvent Call) :=
  trace.filterMap fun
    | .session e => some e
    | _ => none

lemma sessionTrace_append (l m : List Event) :
    sessionTrace (l ++ m) = sessionTrace l ++ sessionTrace m :=
  List.filterMap_append

lemma sessionTrace_map_session (es : List (SessionEvent Call)) :
    sessionTrace (es.map Event.session) = es := by
  unfold sessionTrace
  rw [List.filterMap_map]
  exact List.filterMap_some

/-! ## Phases -/

/-- The phase of connection `c` of worker `w`: `connected` is reported between the first
response and its dispatch. -/
inductive Progress (gotData : Bool) (reading : Reading) (w c : ℕ) : Phase → Prop
  | waiting (hdata : gotData = false) (hr : reading = .idle ∨ reading = .pending) :
    Progress gotData reading w c (.connecting w)
  | first (hdata : gotData = true) (r : MarketDataResponse) (hr : reading = .connected r) :
    Progress gotData reading w c (.connecting w)
  | data (hdata : gotData = true) (hr : ∀ r, reading ≠ .connected r) :
    Progress gotData reading w c (.connected w c)

/-- The phases at the points of `run_once()`. -/
def OncePhase (gotData : Bool) (reading : ℕ → Reading) (w : ℕ) : Once → Phase → Prop
  | .fill, p => p = .connecting w
  | .startCall _, p => p = .connecting w ∧ gotData = false
  | .publish c, p | .waiting c, p => Progress gotData (reading c) w c p

/-- The read sides of the reactors. -/
def State.readings (s : State) (c : ℕ) : Reading := (s.reactors c).reading

/-- The session has followed the protocol up to a phase that fits the running worker. -/
def PhaseAt (s : State) (w : ℕ) (pc : Pc Once) : Prop :=
  ∃ p, Path Phase.Next .idle (sessionTrace s.trace) p ∧
    pc.PhaseOk w (OncePhase s.gotData s.readings w) p

lemma Progress.attempting {gotData : Bool} {reading : Reading}
    (h : Progress gotData reading w c p) : p.Attempting w := by
  cases h <;> simp

/-! ## Steps the user does not see -/

/-- `s'` has the reads and the observations of `s`. -/
structure Unseen (s s' : State) : Prop where
  gotData : s'.gotData = s.gotData := by rfl
  readings : s'.readings = s.readings := by rfl
  trace : sessionTrace s'.trace = sessionTrace s.trace

lemma PhaseAt.unseen (h : PhaseAt s w pc) (hu : Unseen s s') : PhaseAt s' w pc := by
  obtain ⟨p, hpath, hok⟩ := h
  refine ⟨p, ?_, ?_⟩
  · rw [hu.trace]
    exact hpath
  · rw [hu.gotData, hu.readings]
    exact hok

lemma Unseen.trans {s₁ s₂ s₃ : State} (h : Unseen s₁ s₂) (h' : Unseen s₂ s₃) : Unseen s₁ s₃ :=
  ⟨h'.gotData.trans h.gotData, h'.readings.trans h.readings, h'.trace.trans h.trace⟩

/-- A change of one reactor that keeps its read side. -/
lemma unseen_setReactor (s : State) (c holds writes : ℕ) (finished : Bool) :
    Unseen s (s.setReactor c
      { s.reactors c with holds := holds, writes := writes, finished := finished }) where
  readings := by
    funext c'
    by_cases hc : c' = c
    · simp [State.readings, State.setReactor, hc]
    · simp [State.readings, State.setReactor, Function.update_of_ne hc]
  trace := rfl

lemma unseen_releaseLocked (s : State) (caller : Caller) : Unseen s (s.releaseLocked caller) := by
  rcases releaseLocked_cases s caller with ⟨-, heq⟩ | ⟨c, -, -, heq⟩
  · rw [heq]
    exact ⟨rfl, rfl, rfl⟩
  · rw [heq]
    exact ⟨rfl, rfl, by simp [sessionTrace]⟩

lemma unseen_maybeWriteLocked (s : State) : Unseen s s.maybeWriteLocked := by
  rcases maybeWriteLocked_cases s with ⟨-, heq⟩ | ⟨c, next, rest, -, -, -, heq⟩
  · rw [heq]
    exact ⟨rfl, rfl, rfl⟩
  · rw [heq]
    apply (unseen_setReactor s c (s.reactors c).holds ((s.reactors c).writes + 1)
      (s.reactors c).finished).trans
    exact ⟨rfl, rfl, by simp [sessionTrace, State.setReactor]⟩

lemma unseen_stop (s : State) (t : ℕ) : Unseen s (s.stop t) := by
  apply (unseen_releaseLocked s (.stop t)).trans
  rw [stop_eq]
  refine ⟨rfl, rfl, ?_⟩
  rw [sessionTrace_append]
  cases s.ctx <;> simp [sessionTrace]

lemma unseen_send (s : State) (o : Outgoing) : Unseen s (s.send o) := by
  rcases send_cases s o with ⟨-, heq⟩ | ⟨-, -, heq⟩ | ⟨c, -, -, heq⟩
  · rw [heq]
    exact ⟨rfl, rfl, by simp [sessionTrace]⟩
  · rw [heq]
    exact ⟨rfl, rfl, by simp [sessionTrace]⟩
  · rw [heq]
    refine Unseen.trans ?_ (unseen_maybeWriteLocked _)
    exact ⟨rfl, rfl, by simp [sessionTrace]⟩

lemma unseen_publish (s : State) (w c : ℕ) : Unseen s (s.publish w c) := by
  have hpub : Unseen s (s.withReactor w c) :=
    ⟨rfl, rfl, by simp [State.withReactor, sessionTrace]⟩
  rcases publish_cases s w c with ⟨-, heq⟩ | ⟨-, -, -, heq⟩ | ⟨-, -, heq⟩
  · rw [heq]
    exact ⟨rfl, rfl, rfl⟩
  · rw [heq]
    exact hpub.trans (unseen_releaseLocked _ _)
  · rw [heq]
    exact hpub.trans (unseen_maybeWriteLocked _)

lemma unseen_writeDone (s : State) (c : ℕ) (ok : Bool) :
    Unseen s ((s.setReactor c
      { s.reactors c with writes := (s.reactors c).writes - 1 }).handleWriteDone c ok) := by
  apply (unseen_setReactor s c (s.reactors c).holds ((s.reactors c).writes - 1)
    (s.reactors c).finished).trans
  unfold State.handleWriteDone State.handleReadClosed
  split
  · refine Unseen.trans ?_ (unseen_maybeWriteLocked _)
    exact ⟨rfl, rfl, rfl⟩
  · refine Unseen.trans ?_ (unseen_releaseLocked _ _)
    exact ⟨rfl, rfl, rfl⟩

/-! ## Steps the user sees -/

/-- A callback finds the worker at the publication or in its wait. -/
lemma pc_of_active (h : ConnAt s pc) (ha : s.Active c) :
    pc = .once (.publish c) ∨ pc = .once (.waiting c) := by
  obtain ⟨g, hg, hconn, -⟩ := h
  rcases hconn.stage_of_active ha with rfl | rfl
  · left
    cases pc with
    | once k => cases k <;> simp_all [Stage.AtPc]
    | _ => exact absurd hg (by simp [Stage.AtPc])
  · exact Or.inr (pc_of_published hg)

/-- A step of the read side of the current connection. -/
lemma PhaseAt.read (h : PhaseAt s w pc) (hconn : ConnAt s pc) (ha : s.Active c)
    (hstep : ∀ p, Path Phase.Next .idle (sessionTrace s.trace) p →
      Progress s.gotData (s.readings c) w c p →
      ∃ p', Path Phase.Next .idle (sessionTrace s'.trace) p' ∧
        Progress s'.gotData (s'.readings c) w c p') : PhaseAt s' w pc := by
  obtain ⟨p, hpath, hok⟩ := h
  -- a response may arrive before the reactor is published
  rcases pc_of_active hconn ha with rfl | rfl
  · exact hstep p hpath hok
  · exact hstep p hpath hok

lemma readings_setReactor (s : State) (c : ℕ) (r : Reactor) :
    (s.setReactor c r).readings c = r.reading := by
  simp [State.readings, State.setReactor]

/-- The first response of a connection is announced before it is dispatched. -/
lemma phaseAt_response (h : PhaseAt s w pc) (hconn : ConnAt s pc) (ha : s.Active c)
    (hreading : (s.reactors c).reading = .pending) (r : MarketDataResponse) :
    PhaseAt (s.handleResponse cfg c r) w pc := by
  apply h.read hconn ha
  intro p hpath hprogress
  unfold State.handleResponse
  split
  · next hdata =>
    refine ⟨p, hpath, ?_⟩
    rw [readings_setReactor]
    cases hprogress with
    | waiting hnone => exact absurd (hnone.symm.trans hdata) (by simp)
    | first _ r' hr' => exact absurd (hreading.symm.trans hr') (by simp)
    | data => exact .data hdata (by simp)
  · -- the flag is set here, and `connected` is reported by the next step of the callback
    next hdata =>
    refine ⟨p, hpath, ?_⟩
    rw [readings_setReactor]
    cases hprogress with
    | waiting => exact .first rfl r rfl
    | first hset => exact absurd hset hdata
    | data hset => exact absurd hset hdata

lemma phaseAt_readClosed (h : PhaseAt s w pc) (hconn : ConnAt s pc) (ha : s.Active c)
    (hreading : (s.reactors c).reading = .pending) :
    PhaseAt ((s.setReactor c { s.reactors c with reading := .idle }).handleReadClosed (.read c))
      w pc := by
  have hclosed : PhaseAt (s.setReactor c { s.reactors c with reading := .idle }) w pc := by
    apply h.read hconn ha
    intro p hpath hprogress
    refine ⟨p, hpath, ?_⟩
    rw [readings_setReactor]
    cases hprogress with
    | waiting hnone => exact .waiting hnone (Or.inl rfl)
    | first _ r' hr' => exact absurd (hreading.symm.trans hr') (by simp)
    | data hset => exact .data hset (by simp)
  unfold State.handleReadClosed
  apply hclosed.unseen
  refine Unseen.trans ?_ (unseen_releaseLocked _ _)
  exact ⟨rfl, rfl, rfl⟩

lemma phaseAt_connected (h : PhaseAt s w pc) (hconn : ConnAt s pc) (ha : s.Active c)
    {r : MarketDataResponse} (hreading : (s.reactors c).reading = .connected r)
    (calls : List Call) :
    PhaseAt ((s.setReactor c { s.reactors c with reading := .dispatching calls }).emit
      (.session (.notified (.reactor c) .connected none))) w pc := by
  apply h.read hconn ha
  intro p hpath hprogress
  cases hprogress with
  | waiting _ hr =>
    rcases hr with hr | hr <;> exact absurd (hreading.symm.trans hr) (by simp)
  | first hset =>
    refine ⟨.connected w c, ?_, .data hset ?_⟩
    · have hnext := hpath.concat (.connected w c)
      simpa [State.emit, State.setReactor, sessionTrace] using hnext
    · simp [State.emit, State.readings, State.setReactor]
  | data _ hr => exact absurd hreading (hr r)

/-- Handlers run in the connected phase of their own connection. -/
lemma phaseAt_handled (h : PhaseAt s w pc) (hconn : ConnAt s pc) (ha : s.Active c)
    {call : Call} {calls : List Call}
    (hreading : (s.reactors c).reading = .dispatching (call :: calls)) :
    PhaseAt ((s.setReactor c { s.reactors c with reading := .dispatching calls }).emit
      (.session (.handled c call))) w pc := by
  apply h.read hconn ha
  intro p hpath hprogress
  cases hprogress with
  | waiting _ hr =>
    rcases hr with hr | hr <;> exact absurd (hreading.symm.trans hr) (by simp)
  | first _ r hr => exact absurd (hreading.symm.trans hr) (by simp)
  | data hset _ =>
    refine ⟨.connected w c, ?_, .data hset ?_⟩
    · have hnext := hpath.concat (.handled w c call)
      simpa [State.emit, State.setReactor, sessionTrace] using hnext
    · simp [State.emit, State.readings, State.setReactor]

lemma phaseAt_startRead (h : PhaseAt s w pc) (hconn : ConnAt s pc) (ha : s.Active c)
    (hreading : (s.reactors c).reading = .dispatching []) :
    PhaseAt (s.setReactor c { s.reactors c with reading := .pending }) w pc := by
  apply h.read hconn ha
  intro p hpath hprogress
  refine ⟨p, hpath, ?_⟩
  rw [readings_setReactor]
  cases hprogress with
  | waiting _ hr =>
    rcases hr with hr | hr <;> exact absurd (hreading.symm.trans hr) (by simp)
  | first _ r hr => exact absurd (hreading.symm.trans hr) (by simp)
  | data hset => exact .data hset (by simp)

/-! ## Every run -/

/-- **Every move follows the session protocol**; a `stop()` returns when no worker runs. -/
lemma PhaseAt.move (h : PhaseAt s w pc) (hconn : ConnAt s pc)
    (hjoin : ∀ t target, a = .returnStop t target → pc = .ended)
    (hm : Move cfg s w pc a s' w' pc') : PhaseAt s' w' pc' := by
  cases hm with
  | launch hpc =>
    obtain ⟨p, hpath, hok⟩ := h
    subst hpc
    obtain rfl : p = .idle := hok
    refine ⟨.between s.threads.nextWorker, ?_, rfl⟩
    have hnext := hpath.concat (.launched s.threads.nextWorker)
    simpa [sessionTrace] using hnext
  | joinable => exact h
  | stop t => exact h.unseen (unseen_stop s t)
  | returnStop t target =>
    obtain ⟨p, hpath, hok⟩ := h
    obtain rfl := hjoin t target rfl
    obtain rfl : p = .idle := hok
    refine ⟨.idle, ?_, rfl⟩
    have hnext := hpath.concat .stopReturned
    simpa [sessionTrace] using hnext
  | send request remember => exact h.unseen (unseen_send s _)
  | run worker es hpc hat hstep =>
    obtain ⟨p, hpath, hok⟩ := h
    rw [← hat] at hok
    -- `run_once()` is entered right after `notify(connecting)`
    have hfirst : OncePhase s.gotData s.readings w .fill (.connecting w) := rfl
    obtain ⟨p', hes, hok'⟩ := Worker.path_of_step hfirst hstep hok
    refine ⟨p', ?_, hok'⟩
    rw [sessionTrace_append, sessionTrace_map_session, path_append_iff]
    exact ⟨p, hpath, hes⟩
  | cancelled hpc hstopping =>
    subst hpc
    obtain ⟨p, hpath, hok⟩ := h
    obtain rfl : p = .connecting w := hok
    refine ⟨.connecting w, ?_, Or.inl rfl⟩
    simpa [State.fill, hstopping, State.setPc] using hpath
  | fill hpc hstopping =>
    subst hpc
    obtain ⟨p, hpath, hok⟩ := h
    obtain rfl : p = .connecting w := hok
    refine ⟨.connecting w, ?_, rfl, ?_⟩
    · simpa [State.fill, hstopping, State.setPc, State.emit, sessionTrace] using hpath
    · simp [State.fill, hstopping, State.setPc, State.emit]
  | startCall c hpc =>
    subst hpc
    obtain ⟨p, hpath, hok⟩ := h
    obtain ⟨rfl, hdata⟩ := hok
    refine ⟨.connecting w, ?_, .waiting hdata (Or.inr ?_)⟩
    · simpa [State.startCall, State.setPc, State.emit, State.setReactor, sessionTrace] using hpath
    · simp [State.startCall, State.setPc, State.emit, State.setReactor, State.readings]
  | publish c hpc =>
    subst hpc
    have hwait : PhaseAt s w (.once (.waiting c)) := h
    exact hwait.unseen (unseen_publish s w c)
  | finishOnce c hpc =>
    -- the connection may end before its first response
    subst hpc
    obtain ⟨p, hpath, hok⟩ := h
    exact ⟨p, hpath, Progress.attempting hok⟩
  | response c r hactive hreading => exact phaseAt_response h hconn hactive hreading r
  | readClosed c hactive hreading => exact phaseAt_readClosed h hconn hactive hreading
  | connected c r hactive hreading => exact phaseAt_connected h hconn hactive hreading _
  | handled c call calls hactive hreading => exact phaseAt_handled h hconn hactive hreading
  | startRead c hactive hreading => exact phaseAt_startRead h hconn hactive hreading
  | writeDone c ok => exact h.unseen (unseen_writeDone s c ok)
  | done c status =>
    apply (h.unseen (unseen_setReactor s c (s.reactors c).holds (s.reactors c).writes true)).unseen
    exact ⟨rfl, rfl, by simp [State.emit, State.handleDone, State.setReactor, sessionTrace]⟩
  | removeHold caller c =>
    apply (h.unseen (unseen_setReactor s c ((s.reactors c).holds - 1) (s.reactors c).writes
      (s.reactors c).finished)).unseen
    exact ⟨rfl, rfl, by simp [State.emit, State.setReactor, sessionTrace]⟩

/-- Sequential calls: at most one `stop()` is in progress. -/
lemma oneStop_of_reachable (h : Reachable (system cfg) Sequential s) : s.threads.OneStop := by
  have hrun : ∃ w pc, s.threads.Current w pc ∧ s.threads.OneStop := by
    apply invariant_of_move (J := fun s _ _ => s.threads.OneStop) Sequential.launchSafe
      (Threads.oneStop_of_stops rfl) ?_ h
    intro s a s' w pc w' pc' _ _ hseq hm hone
    cases hm with
    | launch => exact Threads.oneStop_of_stops hseq
    | stop t =>
      rw [stop_threads]
      exact Threads.oneStop_take hseq t
    | returnStop t target => exact hone.drop t target
    | run worker => exact hone.setWorker w worker
    -- a point of `run_once()` moves its own worker only
    | cancelled | fill =>
      unfold State.fill
      split <;> exact hone.setWorker w _
    | startCall c => exact hone.setWorker w _
    | publish c =>
      rw [publish_threads]
      exact hone.setWorker w _
    | finishOnce c => exact hone.setWorker w _
    | _ => simpa [State.emit, State.setReactor, State.handleDone] using hone
  obtain ⟨w, pc, -, hone⟩ := hrun
  exact hone

/-- The session protocol holds at every point of every run. -/
lemma phaseAt_of_reachable (h : Reachable (system cfg) Sequential s) :
    ∃ w pc, s.threads.Current w pc ∧ PhaseAt s w pc := by
  apply invariant_of_move (J := PhaseAt) Sequential.launchSafe ⟨.idle, .nil _, rfl⟩ ?_ h
  intro s a s' w pc w' pc' hreach hcur _ hm hphase
  apply hphase.move (connAt_of_current Sequential.launchSafe hreach hcur) ?_ hm
  -- the only `stop()` in progress has joined the only worker
  intro t target hreturn
  subst hreturn
  cases hm with
  | returnStop _ _ hmem hended =>
    exact hcur.ended_of_join (single_of_reachable Sequential.launchSafe hreach).1
      (oneStop_of_reachable hreach) hmem hended

/-- **The market-data stream is well behaved.** -/
lemma marketData_wellBehaved (h : Reachable (system cfg) Sequential s) :
    WellBehaved (sessionTrace s.trace) := by
  obtain ⟨w, pc, -, p, hpath, -⟩ := phaseAt_of_reachable h
  exact wellBehaved_of_path hpath

end MarketDataStream
end TInvest
