import TInvest.Stream.Shutdown

/-!
# The delivery of messages

What a stream hands to the data handlers of a connection is what gRPC read on it: every message,
once, in the order of arrival, whatever else goes on in the meantime.

* `load` — the handler calls made so far, followed by those a running callback has yet to make;
* `load_of_move` — a step adds to the load what it reads, and nothing else;
* `messages_delivered` — so nothing is lost, repeated or reordered on either stream.
-/

namespace TInvest

open Lib.Transition

/-- The calls of the data handlers on behalf of connection `c`. -/
def handledBy {η : Type} (c : ℕ) (l : List (SessionEvent η)) : List η :=
  l.filterMap fun
    | .handled c' call => if c' = c then some call else none
    | _ => none

lemma handledBy_append {η : Type} (c : ℕ) (l m : List (SessionEvent η)) :
    handledBy c (l ++ m) = handledBy c l ++ handledBy c m :=
  List.filterMap_append

/-- A worker calls no data handler. -/
lemma handledBy_of_step {κ η : Type} {opts : StreamOptions} {first : κ} {w : ℕ}
    {stopping gotData : Bool} {worker worker' : Worker κ} {es : List (SessionEvent η)} (c : ℕ)
    (h : worker.step opts first w stopping gotData = some (worker', es)) :
    handledBy c es = [] := by
  unfold Worker.step at h
  split at h
  case h_5 =>
    by_cases hreconnect : opts.reconnect
    · rw [if_pos hreconnect] at h
      cases h
      rfl
    · rw [if_neg hreconnect] at h
      cases h
      rfl
  all_goals cases h
  all_goals rfl

namespace MarketDataStream

open Pb

variable {cfg : Config} {s s' : State} {a : Action} {c w w' : ℕ} {pc pc' : Pc Once}

/-! ## The bidirectional stream -/

/-- The calls a read callback has yet to make. -/
def Reading.calls (h : MarketDataHandlers) : Reading → List Call
  | .connected r => dispatch h r
  | .dispatching calls => calls
  | .idle | .pending => []

/-- The calls made for connection `c`, followed by those that are still to be made. -/
def load (cfg : Config) (c : ℕ) (s : State) : List Call :=
  handledBy c (sessionTrace s.trace) ++ (s.readings c).calls cfg.handlers

/-- The calls that a message read on connection `c` asks for. -/
def Action.incoming (cfg : Config) (c : ℕ) : Action → List Call
  | .onReadDone c' (some r) => if c' = c then dispatch cfg.handlers r else []
  | _ => []

/-- A reactor without callbacks is not in the middle of one. -/
def Quiet (s : State) : Prop :=
  ∀ c, ¬ s.Active c → s.readings c = .idle ∨ s.readings c = .pending

lemma Quiet.calls_eq (h : Quiet s) (ha : ¬ s.Active c) :
    (s.readings c).calls cfg.handlers = [] := by
  rcases h c ha with heq | heq <;> rw [heq] <;> rfl

lemma load_unseen (h : Unseen s s') (c : ℕ) : load cfg c s' = load cfg c s := by
  unfold load
  rw [h.trace, h.readings]

/-- A reactor stays active until its `OnDone`. -/
lemma active_setReactor {c' : ℕ} {r : Reactor}
    (hstarted : (s.reactors c').started = true → r.started = true)
    (hfinished : r.finished = (s.reactors c').finished) (ha : s.Active c) :
    (s.setReactor c' r).Active c := by
  unfold State.Active State.setReactor
  by_cases hc : c = c'
  · subst hc
    simp only [Function.update_self]
    exact ⟨hstarted ha.1, hfinished.trans ha.2⟩
  · simp only [Function.update_of_ne hc]
    exact ha

lemma active_releaseLocked (caller : Caller) (ha : s.Active c) :
    (s.releaseLocked caller).Active c := by
  unfold State.Active
  rwa [reactors_releaseLocked]

lemma active_maybeWriteLocked (ha : s.Active c) : s.maybeWriteLocked.Active c := by
  rcases maybeWriteLocked_cases s with ⟨-, h⟩ | ⟨c', next, rest, -, -, -, h⟩
  · rwa [h]
  · rw [h]
    exact active_setReactor (s := s) id (by rfl) ha

/-- Callbacks end with `OnDone`. -/
lemma active_of_move (hm : Move cfg s w pc a s' w' pc') (hdone : ∀ status, a ≠ .onDone c status)
    (ha : s.Active c) : s'.Active c := by
  cases hm with
  | stop t =>
    unfold State.Active
    rwa [reactors_stop]
  | send request remember =>
    rcases send_cases s ⟨request, remember⟩ with ⟨-, h⟩ | ⟨-, -, h⟩ | ⟨c', -, -, h⟩ <;> rw [h]
    · exact ha
    · exact ha
    · exact active_maybeWriteLocked ha
  | cancelled | fill =>
    unfold State.fill
    split <;> exact ha
  | startCall c' => exact active_setReactor (fun _ => rfl) (by rfl) ha
  | publish c' =>
    rcases publish_cases s w c' with ⟨-, h⟩ | ⟨-, -, -, h⟩ | ⟨-, -, h⟩ <;> rw [h]
    · exact ha
    · exact active_releaseLocked _ ha
    · exact active_maybeWriteLocked ha
  | response c' r =>
    unfold State.handleResponse
    split <;> exact active_setReactor id (by rfl) ha
  | readClosed c' => exact active_releaseLocked _ (active_setReactor id (by rfl) ha)
  | writeDone c' ok =>
    unfold State.handleWriteDone
    split
    · exact active_maybeWriteLocked (active_setReactor id (by rfl) ha)
    · exact active_releaseLocked _ (active_setReactor id (by rfl) ha)
  | done c' status =>
    -- another reactor ends
    have hne : c ≠ c' := by
      intro hc
      exact hdone status (by rw [hc])
    simpa [State.Active, State.emit, State.handleDone, State.setReactor, Function.update_of_ne hne]
      using ha
  | connected | handled | startRead | removeHold => exact active_setReactor id (by rfl) ha
  | launch | joinable | returnStop | run | finishOnce => exact ha

/-- A step the handlers do not see. -/
lemma load_session (es : List (SessionEvent Call)) (hreadings : s'.readings = s.readings)
    (htrace : s'.trace = s.trace ++ es.map .session) (hes : handledBy c es = []) :
    load cfg c s' = load cfg c s := by
  unfold load
  rw [hreadings, htrace, sessionTrace_append, sessionTrace_map_session, handledBy_append, hes,
    List.append_nil]

/-- A step of the read side of connection `c'`, which reads `calls`. -/
lemma load_reading {c' : ℕ} {before after : Reading} (es : List (SessionEvent Call))
    (calls : List Call) (hbefore : s.readings c' = before)
    (hafter : s'.readings = Function.update s.readings c' after)
    (htrace : sessionTrace s'.trace = sessionTrace s.trace ++ es)
    (hes : ∀ c, c' ≠ c → handledBy c es = [])
    (hcalls : handledBy c' es ++ after.calls cfg.handlers = before.calls cfg.handlers ++ calls) :
    load cfg c s' = load cfg c s ++ if c' = c then calls else [] := by
  unfold load
  rw [hafter, htrace, handledBy_append]
  by_cases hc : c' = c
  · subst hc
    rw [if_pos rfl, Function.update_self, hbefore, List.append_assoc, List.append_assoc, hcalls]
  · rw [if_neg hc, Function.update_of_ne (Ne.symm hc), hes c hc, List.append_nil, List.append_nil]

/-- A step of the read side that reads nothing. -/
lemma load_callback {c' : ℕ} {before after : Reading} (es : List (SessionEvent Call))
    (hbefore : s.readings c' = before)
    (hafter : s'.readings = Function.update s.readings c' after)
    (htrace : sessionTrace s'.trace = sessionTrace s.trace ++ es)
    (hes : ∀ c, c' ≠ c → handledBy c es = [])
    (hcalls : handledBy c' es ++ after.calls cfg.handlers = before.calls cfg.handlers) :
    load cfg c s' = load cfg c s := by
  have hload := load_reading (c := c) es [] hbefore hafter htrace hes
    (by rw [hcalls, List.append_nil])
  rwa [ite_self, List.append_nil] at hload

lemma readings_update (s : State) (c : ℕ) (r : Reactor) :
    (s.setReactor c r).readings = Function.update s.readings c r.reading := by
  funext c'
  by_cases hc : c' = c
  · simp [State.readings, State.setReactor, hc]
  · simp [State.readings, State.setReactor, Function.update_of_ne hc]

/-- **A step adds to the load what it reads.** -/
lemma load_of_move (hat : ConnAt s pc) (hquiet : Quiet s)
    (hm : Move cfg s w pc a s' w' pc') (c : ℕ) :
    load cfg c s' = load cfg c s ++ a.incoming cfg c := by
  -- most actions read nothing
  have hnone : load cfg c s' = load cfg c s → a.incoming cfg c = [] →
      load cfg c s' = load cfg c s ++ a.incoming cfg c :=
    fun hload hin => by rw [hin, List.append_nil, hload]
  cases hm with
  | launch => exact hnone (load_session [.launched _] rfl rfl rfl) rfl
  | joinable => exact hnone rfl rfl
  | stop t => exact hnone (load_unseen (unseen_stop s t) c) rfl
  | returnStop => exact hnone (load_session [.stopReturned] rfl rfl rfl) rfl
  | send request remember => exact hnone (load_unseen (unseen_send s _) c) rfl
  | run worker es _ _ hstep => exact hnone (load_session es rfl rfl (handledBy_of_step c hstep)) rfl
  | cancelled _ hstop =>
    apply hnone ?_ rfl
    unfold State.fill
    rw [if_pos hstop]
    rfl
  | fill _ hrun =>
    apply hnone ?_ rfl
    unfold State.fill load
    rw [if_neg (by simp [hrun])]
    simp [State.emit, State.setPc, sessionTrace, State.readings]
  | startCall c' hpc =>
    -- the reactor is new: nothing is left to be made on it
    subst hpc
    have hnew : ¬ s.Active c' := by
      intro hact
      rcases pc_of_active hat hact with h | h <;> exact absurd h (by simp)
    refine hnone (load_callback [] rfl (readings_update ..) ?_ (fun _ _ => rfl) ?_) rfl
    · simp [State.startCall, State.emit, State.setPc, State.setReactor, sessionTrace]
    · exact (hquiet.calls_eq hnew).symm
  | publish c' => exact hnone (load_unseen (unseen_publish s w c') c) rfl
  | finishOnce => exact hnone rfl rfl
  | response c' r hactive hreading =>
    unfold State.handleResponse
    split
    all_goals
      exact load_reading [] _ hreading (readings_update ..) (List.append_nil _).symm
        (fun _ _ => rfl) rfl
  | readClosed c' hactive hreading =>
    apply hnone ?_ rfl
    unfold State.handleReadClosed
    rw [load_unseen (unseen_releaseLocked _ _)]
    exact load_callback [] hreading (readings_update s c' _) (List.append_nil _).symm
      (fun _ _ => rfl) rfl
  | connected c' r hactive hreading =>
    exact hnone (load_callback [.notified _ _ _] hreading (readings_update s c' _)
      (sessionTrace_append ..) (fun _ _ => rfl) rfl) rfl
  | handled c' call calls hactive hreading =>
    refine hnone (load_callback [.handled c' call] hreading (readings_update s c' _)
      (sessionTrace_append ..) ?_ ?_) rfl
    · intro c hc
      simp [handledBy, hc]
    · simp [handledBy, Reading.calls]
  | startRead c' hactive hreading =>
    exact hnone (load_callback [] hreading (readings_update s c' _)
      (List.append_nil _).symm (fun _ _ => rfl) rfl) rfl
  | writeDone c' ok => exact hnone (load_unseen (unseen_writeDone s c' ok) c) rfl
  | done c' status =>
    apply hnone ?_ rfl
    rw [← load_unseen (unseen_setReactor s c' (s.reactors c').holds (s.reactors c').writes true)]
    apply load_unseen
    exact ⟨rfl, rfl, by simp [State.emit, State.handleDone, State.setReactor, sessionTrace]⟩
  | removeHold caller c' =>
    apply hnone ?_ rfl
    rw [← load_unseen (unseen_setReactor s c' ((s.reactors c').holds - 1) (s.reactors c').writes
      (s.reactors c').finished)]
    apply load_unseen
    exact ⟨rfl, rfl, by simp [State.emit, State.setReactor, sessionTrace]⟩

/-- Without callbacks the read side stands still, until `StartRead`. -/
lemma readings_of_not_active (hm : Move cfg s w pc a s' w' pc') (ha : ¬ s.Active c) :
    s'.readings c = s.readings c ∨ s'.readings c = .pending := by
  -- a callback belongs to another reactor
  have hother : ∀ {c' : ℕ} (r : Reactor), s.Active c' →
      (s.setReactor c' r).readings c = s.readings c := by
    intro c' r hactive
    rw [readings_update, Function.update_of_ne]
    rintro rfl
    exact ha hactive
  cases hm with
  | stop t => exact Or.inl (congrFun (unseen_stop s t).readings c)
  | send request remember => exact Or.inl (congrFun (unseen_send s _).readings c)
  | publish c' => exact Or.inl (congrFun (unseen_publish s w c').readings c)
  | cancelled | fill =>
    left
    unfold State.fill
    split <;> rfl
  | startCall c' =>
    have heq : (s.startCall w c').readings = Function.update s.readings c' .pending :=
      readings_update s c' _
    rw [heq]
    by_cases hc : c = c'
    · rw [hc, Function.update_self]
      exact Or.inr rfl
    · rw [Function.update_of_ne hc]
      exact Or.inl rfl
  | response c' r hactive =>
    left
    unfold State.handleResponse
    split <;> exact hother _ hactive
  | readClosed c' hactive =>
    left
    unfold State.handleReadClosed
    rw [(unseen_releaseLocked _ _).readings]
    exact hother _ hactive
  | writeDone c' ok => exact Or.inl (congrFun (unseen_writeDone s c' ok).readings c)
  | connected c' _ hactive | handled c' _ _ hactive | startRead c' hactive
  | done c' _ hactive => exact Or.inl (hother _ hactive)
  | removeHold caller c' =>
    left
    exact congrFun (unseen_setReactor s c' ((s.reactors c').holds - 1) (s.reactors c').writes
      (s.reactors c').finished).readings c
  | launch | joinable | returnStop | run | finishOnce => exact Or.inl rfl

/-- A reactor ends when its read side has nothing left to do. -/
lemma Quiet.move (h : Quiet s) (hm : Move cfg s w pc a s' w' pc') : Quiet s' := by
  intro c hnot
  by_cases ha : s.Active c
  · by_cases hdone : ∃ status, a = .onDone c status
    · obtain ⟨status, rfl⟩ := hdone
      cases hm with
      | done _ _ _ _ hreading =>
        have heq := (unseen_setReactor s c (s.reactors c).holds (s.reactors c).writes true).readings
        show State.readings (s.setReactor c _) c = .idle ∨
          State.readings (s.setReactor c _) c = .pending
        rw [heq]
        exact hreading
    · exact absurd (active_of_move hm (not_exists.mp hdone) ha) hnot
  · rcases readings_of_not_active hm ha with heq | heq
    · rw [heq]
      exact h c ha
    · exact Or.inr heq

lemma quiet_of_reachable {ok : State → Action → Prop} (hok : ∀ s a, ok s a → LaunchSafe s a)
    (h : Reachable (system cfg) ok s) : Quiet s := by
  have hrun : ∃ w pc, s.threads.Current w pc ∧ Quiet s := by
    apply invariant_of_move (J := fun s _ _ => Quiet s) hok (fun _ _ => Or.inl rfl) ?_ h
    intro s a s' w pc w' pc' _ _ _ hm hquiet
    exact hquiet.move hm
  obtain ⟨w, pc, -, hquiet⟩ := hrun
  exact hquiet

lemma load_of_execution {as : List Action} (h : Execution (system cfg) LaunchSafe {} as s) (c : ℕ) :
    load cfg c s = as.flatMap (Action.incoming cfg c) := by
  have hstep : ∀ s a s', Reachable (system cfg) LaunchSafe s → LaunchSafe s a →
      step cfg s a = some s' →
      load cfg c s' = load cfg c s ++ a.incoming cfg c ∧ Reachable (system cfg) LaunchSafe s' := by
    intro s a s' hreach hsafe hs
    obtain ⟨hsingle, w, pc, hcur⟩ := single_of_reachable (fun _ _ hok => hok) hreach
    have hat := connAt_of_current (fun _ _ hok => hok) hreach hcur
    have hquiet := quiet_of_reachable (fun _ _ hok => hok) hreach
    obtain ⟨w', pc', hm, -⟩ := move_of_step hsingle hcur hsafe hs
    exact ⟨load_of_move hat hquiet hm c, .step a hreach hsafe hs⟩
  have hload := (h.conserve (load cfg c) (Action.incoming cfg c) hstep .init).1
  rwa [show load cfg c {} = [] from rfl, List.nil_append] at hload

end MarketDataStream

namespace ServerStream

variable {Resp : Type} {cfg : Config Resp} {s s' : State Resp} {a : Action Resp}
  {c w w' : ℕ} {pc pc' : Pc Once}

/-! ## Server-side streams -/

/-- The messages among `r` that `on_data_` gets: not a ping, and only if it is set. -/
def accepted (cfg : Config Resp) (r : Resp) : List Resp :=
  if cfg.isPing.any (· r) then [] else if cfg.onData then [r] else []

/-- The messages a read callback has yet to hand on. -/
def Reading.calls (cfg : Config Resp) : Reading Resp → List Resp
  | .unset r | .connected r | .data r => accepted cfg r
  | .idle | .pending | .restart => []

/-- The messages handed on for connection `c`, followed by those that are still to be. -/
def load (cfg : Config Resp) (c : ℕ) (s : State Resp) : List Resp :=
  handledBy c s.trace ++ (s.readings c).calls cfg

/-- The messages read on connection `c` that `on_data_` is to get. -/
def Action.incoming (cfg : Config Resp) (c : ℕ) : Action Resp → List Resp
  | .onReadDone c' (some r) => if c' = c then accepted cfg r else []
  | _ => []

/-- A reactor without callbacks is not in the middle of one. -/
def Quiet (s : State Resp) : Prop :=
  ∀ c, ¬ s.Active c → s.readings c = .idle ∨ s.readings c = .pending

lemma Quiet.calls_eq (h : Quiet s) (ha : ¬ s.Active c) : (s.readings c).calls cfg = [] := by
  rcases h c ha with heq | heq <;> rw [heq] <;> rfl

lemma handledBy_dataCalls (c' : ℕ) (r : Resp) :
    handledBy c (State.dataCalls cfg c' r) = if c' = c then accepted cfg r else [] := by
  unfold State.dataCalls accepted
  split
  · simp [handledBy]
  · split
    · by_cases hc : c' = c <;> simp [handledBy, hc]
    · simp [handledBy]

lemma readings_update (s : State Resp) (c : ℕ) (r : Reactor Resp) :
    (s.setReactor c r).readings = Function.update s.readings c r.reading := by
  funext c'
  by_cases hc : c' = c
  · simp [State.readings, State.setReactor, hc]
  · simp [State.readings, State.setReactor, Function.update_of_ne hc]

lemma readings_stop (s : State Resp) (t : ℕ) : (s.stop t).readings = s.readings := by
  unfold State.stop
  dsimp only
  split
  · next c' _ =>
    exact readings_setReactor { s with stopping := true, threads := s.threads.take t } c' true _
  · rfl

/-- A step of the read side of connection `c'`, which reads `calls`. -/
lemma load_reading {c' : ℕ} {before after : Reading Resp} (es : List (SessionEvent Resp))
    (calls : List Resp) (hbefore : (s.reactors c').reading = before)
    (hafter : s'.readings = Function.update s.readings c' after)
    (htrace : s'.trace = s.trace ++ es) (hes : ∀ c, c' ≠ c → handledBy c es = [])
    (hcalls : handledBy c' es ++ after.calls cfg = before.calls cfg ++ calls) :
    load cfg c s' = load cfg c s ++ if c' = c then calls else [] := by
  unfold load
  rw [hafter, htrace, handledBy_append]
  by_cases hc : c' = c
  · subst hc
    have hself : s.readings c' = before := hbefore
    rw [if_pos rfl, Function.update_self, hself, List.append_assoc, List.append_assoc, hcalls]
  · rw [if_neg hc, Function.update_of_ne (Ne.symm hc), hes c hc, List.append_nil, List.append_nil]

/-- A step of the read side that reads nothing. -/
lemma load_callback {c' : ℕ} {before after : Reading Resp} (es : List (SessionEvent Resp))
    (hbefore : (s.reactors c').reading = before)
    (hafter : s'.readings = Function.update s.readings c' after)
    (htrace : s'.trace = s.trace ++ es) (hes : ∀ c, c' ≠ c → handledBy c es = [])
    (hcalls : handledBy c' es ++ after.calls cfg = before.calls cfg) :
    load cfg c s' = load cfg c s := by
  have hload := load_reading (c := c) es [] hbefore hafter htrace hes
    (by rw [hcalls, List.append_nil])
  rwa [ite_self, List.append_nil] at hload

lemma load_of_onReadDone {c' : ℕ} {response : Option Resp}
    (h : s.onReadDone c' response = some s') :
    load cfg c s' = load cfg c s ++ (Action.onReadDone c' response).incoming cfg c := by
  unfold State.onReadDone at h
  split at h
  · next hreading =>
    split at h
    · cases response with
      | some r =>
        cases h
        apply load_reading [] _ hreading (readings_update ..) (List.append_nil _).symm
          (fun _ _ => rfl)
        cases s.gotData <;> rfl
      | none =>
        cases h
        have hload : load cfg c (s.setReading c' .idle) = load cfg c s :=
          load_callback [] hreading (readings_update ..) (List.append_nil _).symm
            (fun _ _ => rfl) rfl
        rw [hload]
        exact (List.append_nil _).symm
    · exact absurd h (by simp)
  · exact absurd h (by simp)

lemma load_of_readStep {c' : ℕ} (h : s.readStep cfg c' = some s') :
    load cfg c s' = load cfg c s := by
  unfold State.readStep at h
  split at h
  · split at h
    · next r hreading =>
      cases h
      exact load_callback [] hreading (readings_update s c' _) (List.append_nil _).symm
        (fun _ _ => rfl) rfl
    · next r hreading =>
      cases h
      exact load_callback _ hreading (readings_update s c' _) rfl (fun _ _ => rfl) rfl
    · next r hreading =>
      -- the message is handed on, or filtered out
      cases h
      refine load_callback _ hreading (readings_update s c' _) rfl ?_ ?_
      · intro c hc
        rw [handledBy_dataCalls, if_neg hc]
      · rw [handledBy_dataCalls, if_pos rfl]
        exact List.append_nil _
    · next hreading =>
      cases h
      exact load_callback [] hreading (readings_update s c' _) (List.append_nil _).symm
        (fun _ _ => rfl) rfl
    all_goals exact absurd h (by simp)
  · exact absurd h (by simp)

/-- The other steps read nothing and hand nothing on. -/
lemma load_of_move (hat : ConnAt s pc) (hquiet : Quiet s) (hm : Move cfg s w pc a s' w' pc')
    (hread : ∀ c', a ≠ .readStep c' ∧ ∀ response, a ≠ .onReadDone c' response) (c : ℕ) :
    load cfg c s' = load cfg c s ++ a.incoming cfg c := by
  have hnone : load cfg c s' = load cfg c s → a.incoming cfg c = [] →
      load cfg c s' = load cfg c s ++ a.incoming cfg c :=
    fun hload hin => by rw [hin, List.append_nil, hload]
  have hsession : ∀ es : List (SessionEvent Resp), s'.readings = s.readings →
      s'.trace = s.trace ++ es → handledBy c es = [] → load cfg c s' = load cfg c s := by
    intro es hreadings htrace hes
    unfold load
    rw [hreadings, htrace, handledBy_append, hes, List.append_nil]
  cases hm with
  | launch => exact hnone (hsession [.launched _] rfl rfl rfl) rfl
  | joinable => exact hnone rfl rfl
  | stop t =>
    apply hnone (hsession [] (readings_stop s t) ?_ rfl) rfl
    rw [List.append_nil]
    unfold State.stop
    dsimp only
    split <;> rfl
  | returnStop => exact hnone (hsession [.stopReturned] rfl rfl rfl) rfl
  | run worker es _ _ hstep => exact hnone (hsession es rfl rfl (handledBy_of_step c hstep)) rfl
  | reset | finishOnce => exact hnone rfl rfl
  | cancelled | enter =>
    apply hnone ?_ rfl
    unfold State.enter
    split <;> rfl
  | startCall c' hpc =>
    -- the call is new: no message was read on it
    subst hpc
    have hnew : ¬ s.Active c' := fun hact => absurd ((hat.active c').mp hact).1 (by simp)
    refine hnone (load_callback [] rfl (readings_update ..) (List.append_nil _).symm
      (fun _ _ => rfl) ?_) rfl
    exact (hquiet.calls_eq hnew).symm
  | read c' gotData reading es haction =>
    rcases haction with rfl | ⟨response, rfl⟩
    · exact absurd rfl (hread c').1
    · exact absurd rfl ((hread c').2 response)
  | done c' status =>
    apply hnone ?_ rfl
    exact hsession [] (readings_setReactor s c' (s.reactors c').cancelled true)
      (List.append_nil _).symm rfl

/-- A reactor stays active until its `OnDone`. -/
lemma active_setReactor {c' : ℕ} {r : Reactor Resp}
    (hstarted : (s.reactors c').started = true → r.started = true)
    (hfinished : r.finished = (s.reactors c').finished) (ha : s.Active c) :
    (s.setReactor c' r).Active c := by
  unfold State.Active State.setReactor
  by_cases hc : c = c'
  · subst hc
    simp only [Function.update_self]
    exact ⟨hstarted ha.1, hfinished.trans ha.2⟩
  · simp only [Function.update_of_ne hc]
    exact ha

/-- Callbacks end with `OnDone`. -/
lemma active_of_move (hm : Move cfg s w pc a s' w' pc') (hdone : ∀ status, a ≠ .onDone c status)
    (ha : s.Active c) : s'.Active c := by
  cases hm with
  | stop t =>
    unfold State.stop
    dsimp only
    split
    · exact active_setReactor (s := { s with stopping := true, threads := s.threads.take t }) id
        (by rfl) ha
    · exact ha
  | cancelled | enter =>
    unfold State.enter
    split <;> exact ha
  | startCall c' => exact active_setReactor (fun _ => rfl) (by rfl) ha
  | read c' => exact active_setReactor id (by rfl) ha
  | done c' status =>
    -- another reactor ends
    have hne : c ≠ c' := by
      intro hc
      exact hdone status (by rw [hc])
    simpa [State.Active, State.setReactor, Function.update_of_ne hne] using ha
  | launch | joinable | returnStop | run | reset | finishOnce => exact ha

/-- Without callbacks the read side stands still, until `StartRead`. -/
lemma readings_of_not_active (hm : Move cfg s w pc a s' w' pc') (ha : ¬ s.Active c) :
    s'.readings c = s.readings c ∨ s'.readings c = .pending := by
  -- a change of another reactor
  have hother : ∀ {c' : ℕ} (r : Reactor Resp), c ≠ c' →
      (s.setReactor c' r).readings c = s.readings c := by
    intro c' r hne
    rw [readings_update, Function.update_of_ne hne]
  cases hm with
  | stop t => exact Or.inl (congrFun (readings_stop s t) c)
  | cancelled | enter =>
    left
    unfold State.enter
    split <;> rfl
  | startCall c' =>
    by_cases hc : c = c'
    · subst hc
      right
      simp [State.startCall, State.setPc, State.setReactor, State.readings]
    · exact Or.inl (hother _ hc)
  | read c' _ _ _ _ hactive | done c' _ hactive =>
    refine Or.inl (hother _ ?_)
    rintro rfl
    exact ha hactive
  | launch | joinable | returnStop | run | reset | finishOnce => exact Or.inl rfl

/-- A reactor ends when its read side has nothing left to do. -/
lemma Quiet.move (h : Quiet s) (hm : Move cfg s w pc a s' w' pc')
    (hs : step cfg s a = some s') : Quiet s' := by
  intro c hnot
  by_cases ha : s.Active c
  · by_cases hdone : ∃ status, a = .onDone c status
    · obtain ⟨status, rfl⟩ := hdone
      have hreadings : ∀ cancelled, (s.setReactor c { s.reactors c with
          cancelled := cancelled, finished := true }).readings = s.readings :=
        fun cancelled => readings_setReactor s c cancelled true
      simp only [step, State.onDone] at hs
      split at hs
      all_goals
        first
        | rename_i hreading
          rw [if_pos ha] at hs
          cases hs
          show State.readings (s.setReactor c _) c = .idle
            ∨ State.readings (s.setReactor c _) c = .pending
          rw [hreadings]
          simp [State.readings, hreading]
        | exact absurd hs (by simp)
    · exact absurd (active_of_move hm (not_exists.mp hdone) ha) hnot
  · rcases readings_of_not_active hm ha with heq | heq
    · rw [heq]
      exact h c ha
    · exact Or.inr heq

lemma quiet_of_reachable {ok : State Resp → Action Resp → Prop}
    (hok : ∀ s a, ok s a → LaunchSafe s a) (h : Reachable (system cfg) ok s) : Quiet s := by
  apply h.invariant (I := Quiet) (fun _ _ => Or.inl rfl)
  intro s a s' hreach hquiet ha hs
  obtain ⟨hsingle, w, pc, hcur⟩ := single_of_reachable hok hreach
  obtain ⟨w', pc', hm, -⟩ := move_of_step hsingle hcur (hok s a ha) hs
  exact hquiet.move hm hs

lemma load_of_execution {as : List (Action Resp)}
    (h : Execution (system cfg) LaunchSafe {} as s) (c : ℕ) :
    load cfg c s = as.flatMap (Action.incoming cfg c) := by
  have hstep : ∀ s a s', Reachable (system cfg) LaunchSafe s → LaunchSafe s a →
      step cfg s a = some s' →
      load cfg c s' = load cfg c s ++ a.incoming cfg c ∧ Reachable (system cfg) LaunchSafe s' := by
    intro s a s' hreach hsafe hs
    refine ⟨?_, .step a hreach hsafe hs⟩
    obtain ⟨hsingle, w, pc, hcur⟩ := single_of_reachable (fun _ _ hok => hok) hreach
    have hat := connAt_of_current (fun _ _ hok => hok) hreach hcur
    have hquiet := quiet_of_reachable (fun _ _ hok => hok) hreach
    obtain ⟨w', pc', hm, -⟩ := move_of_step hsingle hcur hsafe hs
    cases a with
    | onReadDone c' response => exact load_of_onReadDone hs
    | readStep c' =>
      rw [load_of_readStep hs]
      exact (List.append_nil _).symm
    | _ => exact load_of_move hat hquiet hm (fun _ => ⟨by simp, by simp⟩) c
  have hload := (h.conserve (load cfg c) (Action.incoming cfg c) hstep .init).1
  rwa [show load cfg c {} = [] from rfl, List.nil_append] at hload

end ServerStream

/-! ## Both streams -/

variable {Resp : Type} {mdCfg : MarketDataStream.Config} {ssCfg : ServerStream.Config Resp}
  {s : MarketDataStream.State} {u : ServerStream.State Resp}
  {as : List MarketDataStream.Action} {bs : List (ServerStream.Action Resp)}

/-- **Every message is delivered once and in order.** After any run of safe launches the calls of
the data handlers made for a connection, followed by those that its running callback still has to
make, are the calls its messages ask for, in the order in which they were read; and when gRPC has
finished with the connection none is left to be made. -/
theorem messages_delivered
    (h : Execution (MarketDataStream.system mdCfg) MarketDataStream.LaunchSafe {} as s)
    (h' : Execution (ServerStream.system ssCfg) ServerStream.LaunchSafe {} bs u) (c : ℕ) :
    (handledBy c (MarketDataStream.sessionTrace s.trace) ++ (s.readings c).calls mdCfg.handlers
        = as.flatMap (MarketDataStream.Action.incoming mdCfg c) ∧
      ((s.reactors c).finished = true → (s.readings c).calls mdCfg.handlers = [])) ∧
    (handledBy c u.trace ++ (u.readings c).calls ssCfg
        = bs.flatMap (ServerStream.Action.incoming ssCfg c) ∧
      ((u.reactors c).finished = true → (u.readings c).calls ssCfg = [])) := by
  have hs := MarketDataStream.load_of_execution h c
  have hu := ServerStream.load_of_execution h' c
  have hquiet : MarketDataStream.Quiet s := MarketDataStream.quiet_of_reachable
    (fun _ _ hok => hok) (Reachable.init.execution (fun _ _ hok => hok) h)
  have hquiet' : ServerStream.Quiet u := ServerStream.quiet_of_reachable
    (fun _ _ hok => hok) (Reachable.init.execution (fun _ _ hok => hok) h')
  -- a finished reactor is not active
  refine ⟨⟨hs, fun hfin => hquiet.calls_eq ?_⟩, hu, fun hfin => hquiet'.calls_eq ?_⟩
  · exact fun hact => absurd (hact.2.symm.trans hfin) (by simp)
  · exact fun hact => absurd (hact.2.symm.trans hfin) (by simp)

/-- Two messages on each stream, the second one still being handled. -/
theorem messages_delivered_candle :
    ∃ (s : MarketDataStream.State) (u : ServerStream.State ℕ)
      (as : List MarketDataStream.Action) (bs : List (ServerStream.Action ℕ)),
      Execution (MarketDataStream.system MarketDataStream.demoConfig) MarketDataStream.LaunchSafe
        {} as s ∧
      Execution (ServerStream.system demoServerConfig) ServerStream.LaunchSafe {} bs u ∧
      handledBy 0 (MarketDataStream.sessionTrace s.trace)
          ++ (s.readings 0).calls MarketDataStream.demoConfig.handlers
        = [⟨.onRaw, .candle⟩, ⟨.onCandle, .candle⟩, ⟨.onRaw, .trade⟩, ⟨.onTrade, .trade⟩] ∧
      handledBy 0 u.trace ++ (u.readings 0).calls demoServerConfig = [7, 8] := by
  obtain ⟨s, hs, -⟩ := exists_execution_of_run
    (MarketDataStream.system MarketDataStream.demoConfig) MarketDataStream.Sequential
    (fun _ => true)
    (MarketDataStream.connectSteps ++
      [.onReadDone 0 (some .candle), .readStep 0, .readStep 0, .readStep 0, .readStep 0,
        .onReadDone 0 (some .trade), .readStep 0]) {} (by decide +kernel)
  obtain ⟨u, hu, -⟩ := exists_execution_of_run
    (ServerStream.system demoServerConfig) ServerStream.Sequential (fun _ => true)
    [.start, .worker 0, .worker 0, .worker 0, .worker 0, .worker 0, .onReadDone 0 (some 7),
      .readStep 0, .readStep 0, .readStep 0, .readStep 0, .onReadDone 0 (some 8)] {}
    (by decide +kernel)
  have hs' := hs.mono MarketDataStream.Sequential.launchSafe
  have hu' := hu.mono ServerStream.Sequential.launchSafe
  have hboth := messages_delivered hs' hu' 0
  exact ⟨s, u, _, _, hs', hu', hboth.1.1.trans (by decide), hboth.2.1.trans (by decide)⟩

end TInvest
