import TInvest.Stream.Connection
import TInvest.Stream.RegistryRuns

/-!
# What the server is told

The requests handed to `StartWrite` on a connection and the ones still queued.

* `writes_fifo` — on a live connection they are the registry snapshot followed by everything
  sent since the reactor was published, in order, and the queue never waits without a write
  in flight;
* `told_matches_registry` — applied to an empty registry they give `subscriptions_`, as long
  as no `send` changes the registry between the queue fill and the publication of a connection
  that is not broken;
* `gap_send_is_lost` — which a `send` in that gap can do.
-/

namespace TInvest
namespace MarketDataStream

open Pb
open Lib.Transition

/-- The requests handed to `StartWrite` on a connection, in order. -/
def handed (c : ℕ) (trace : List Event) : List Outgoing :=
  trace.filterMap fun
    | .startWrite c' o => if c' = c then some o else none
    | _ => none

/-- The requests of all calls of `send`, in the order of their critical sections. -/
def sends (trace : List Event) : List Outgoing :=
  trace.filterMap fun
    | .sent o _ => some o
    | _ => none

/-- What the server was told on a connection, or is queued to be told. -/
def told (s : State) (c : ℕ) : List Outgoing := handed c s.trace ++ s.writeQueue

/-- The queue a registry snapshot makes. -/
def replayed (snapshot : List MarketDataRequest) : List Outgoing :=
  snapshot.map fun r => ⟨r, true⟩

namespace Event

/-- The queue fill and the publication of a connection. -/
def Opens (c : ℕ) : Event → Prop
  | filled c' _ | published c' => c' = c
  | _ => False

/-- Events the queue of a connection does not depend on. -/
def Calm (c : ℕ) : Event → Prop
  | filled c' _ | published c' | startWrite c' _ => c' ≠ c
  | sent _ _ => False
  | _ => True

lemma Calm.not_opens {c : ℕ} {e : Event} (h : e.Calm c) : ¬ e.Opens c := by
  cases e <;> simp_all [Calm, Opens]

end Event

/-! ## Pieces of trace -/

lemma handed_append (c : ℕ) (l m : List Event) :
    handed c (l ++ m) = handed c l ++ handed c m :=
  List.filterMap_append

lemma sends_append (l m : List Event) : sends (l ++ m) = sends l ++ sends m :=
  List.filterMap_append

lemma handed_of_calm {c : ℕ} {es : List Event} (h : ∀ e ∈ es, e.Calm c) : handed c es = [] := by
  unfold handed
  rw [List.filterMap_eq_nil_iff]
  intro e he
  have hcalm := h e he
  cases e <;> simp_all [Event.Calm]

lemma sends_of_calm {c : ℕ} {es : List Event} (h : ∀ e ∈ es, e.Calm c) : sends es = [] := by
  unfold sends
  rw [List.filterMap_eq_nil_iff]
  intro e he
  have hcalm := h e he
  cases e <;> simp_all [Event.Calm]

/-- A connection nothing was said about was handed nothing. -/
lemma handed_of_fresh {c : ℕ} {l : List Event} (h : ∀ e ∈ l, e.conn? ≠ some c) :
    handed c l = [] := by
  unfold handed
  rw [List.filterMap_eq_nil_iff]
  intro e he
  have hfresh := h e he
  cases e <;> simp_all [Event.conn?]

/-! ## The invariant -/

variable {cfg : Config} {s s' : State} {a : Action} {c w w' : ℕ} {pc pc' : Pc Once}

/-- The queue is filled, and nothing is handed out yet. -/
def Filled (s : State) (c : ℕ) : Prop :=
  ∃ pre snapshot mid, s.trace = pre ++ .filled c snapshot :: mid ∧
    (∀ e ∈ pre ++ mid, ¬ e.Opens c) ∧
    snapshot = replay (recordAll (remembered pre)) ∧ told s c = replayed snapshot

/-- Everything sent since the publication follows the snapshot. -/
def Flowing (s : State) (c : ℕ) : Prop :=
  ∃ pre snapshot mid post, s.trace = pre ++ .filled c snapshot :: (mid ++ .published c :: post) ∧
    (∀ e ∈ pre ++ mid ++ post, ¬ e.Opens c) ∧
    snapshot = replay (recordAll (remembered pre)) ∧
    told s c = replayed snapshot ++ sends post

/-- A queued request has a write in flight before it, whose completion will send it. -/
def Draining (s : State) (c : ℕ) : Prop :=
  (s.writeQueue ≠ [] → s.writeInFlight = true) ∧
    (s.writeInFlight = true → (s.reactors c).writes = 1)

/-- The queue invariant, by the point of the worker that runs. -/
def QueueAt (s : State) : Pc Once → Prop
  | .once (.startCall c) | .once (.publish c) => Filled s c
  | .once (.waiting c) => s.Live c → Flowing s c ∧ Draining s c
  | _ => True

/-! ## Steps that leave the queue alone -/

/-- `s'` differs from `s` in nothing the queue of `c` depends on. -/
structure Calm (s s' : State) (c : ℕ) : Prop where
  queue : s'.writeQueue = s.writeQueue := by rfl
  subscriptions : s'.subscriptions = s.subscriptions := by rfl
  flight : s'.writeInFlight = s.writeInFlight := by rfl
  writes : (s'.reactors c).writes = (s.reactors c).writes := by rfl
  live : s'.Live c → s.Live c := by exact id
  broken : s.broken = true → s'.broken = true := by exact id
  trace : ∃ es, s'.trace = s.trace ++ es ∧ ∀ e ∈ es, e.Calm c

lemma told_append {es : List Event} (hq : s'.writeQueue = s.writeQueue)
    (ht : s'.trace = s.trace ++ es) (hes : ∀ e ∈ es, e.Calm c) : told s' c = told s c := by
  unfold told
  rw [hq, ht, handed_append, handed_of_calm hes, List.append_nil]

lemma Calm.told (h : Calm s s' c) : told s' c = told s c := by
  obtain ⟨es, ht, hes⟩ := h.trace
  exact told_append h.queue ht hes

/-- A connection that is not broken after a calm step was not broken before it. -/
lemma Calm.whole (h : Calm s s' c) (hwhole : s'.broken = false) : s.broken = false := by
  by_contra hbroken
  exact absurd ((h.broken (by simpa using hbroken)).symm.trans hwhole) (by simp)

/-- The trace of a filled queue may grow, by calls of `send` too. -/
lemma Filled.append {es : List Event} (h : Filled s c) (ht : s'.trace = s.trace ++ es)
    (hes : ∀ e ∈ es, ¬ e.Opens c) (htold : MarketDataStream.told s' c = told s c) :
    Filled s' c := by
  obtain ⟨pre, snapshot, mid, htrace, hopens, hsnapshot, hqueue⟩ := h
  refine ⟨pre, snapshot, mid ++ es, ?_, ?_, hsnapshot, htold.trans hqueue⟩
  · rw [ht, htrace, List.append_assoc, List.cons_append]
  · rw [← List.append_assoc]
    exact List.forall_mem_append.mpr ⟨hopens, hes⟩

/-- What is sent on a live connection is told. -/
lemma Flowing.append {es : List Event} (h : Flowing s c) (ht : s'.trace = s.trace ++ es)
    (hes : ∀ e ∈ es, ¬ e.Opens c)
    (htold : MarketDataStream.told s' c = told s c ++ sends es) : Flowing s' c := by
  obtain ⟨pre, snapshot, mid, post, htrace, hopens, hsnapshot, hqueue⟩ := h
  refine ⟨pre, snapshot, mid, post ++ es, ?_, ?_, hsnapshot, ?_⟩
  · rw [ht, htrace]
    simp
  · rw [← List.append_assoc]
    exact List.forall_mem_append.mpr ⟨hopens, hes⟩
  · rw [htold, hqueue, sends_append, List.append_assoc]

lemma Calm.filled (h : Calm s s' c) (hf : Filled s c) : Filled s' c := by
  obtain ⟨es, ht, hes⟩ := h.trace
  exact hf.append ht (fun e he => (hes e he).not_opens) h.told

lemma Calm.flowing (h : Calm s s' c) (hf : Flowing s c) : Flowing s' c := by
  obtain ⟨es, ht, hes⟩ := h.trace
  apply hf.append ht (fun e he => (hes e he).not_opens)
  rw [h.told, sends_of_calm hes, List.append_nil]

lemma Calm.draining (h : Calm s s' c) (hd : Draining s c) : Draining s' c := by
  unfold Draining at *
  rw [h.queue, h.flight, h.writes]
  exact hd

lemma QueueAt.calm (h : QueueAt s pc) (hcalm : ∀ c, Calm s s' c) : QueueAt s' pc := by
  unfold QueueAt at *
  split
  · exact (hcalm _).filled h
  · exact (hcalm _).filled h
  · intro hlive
    have hold := h ((hcalm _).live hlive)
    exact ⟨(hcalm _).flowing hold.1, (hcalm _).draining hold.2⟩
  · trivial

/-! ## Calm moves -/

lemma not_live_of_broken (h : s.broken = true) : ¬ s.Live c := by
  intro hlive
  exact absurd (h.symm.trans hlive.2.1) (by simp)

lemma calm_session (es : List (SessionEvent Call)) : ∀ e ∈ es.map Event.session, e.Calm c := by
  intro e he
  obtain ⟨e', -, rfl⟩ := List.mem_map.mp he
  trivial

/-- A change of one reactor that keeps its outstanding writes. -/
lemma calm_setReactor (s : State) (c c' holds : ℕ) (reading : Reading) (finished : Bool) :
    Calm s (s.setReactor c
      { s.reactors c with holds := holds, reading := reading, finished := finished }) c' where
  writes := by
    by_cases hc : c' = c
    · simp [State.setReactor, hc]
    · simp [State.setReactor, Function.update_of_ne hc]
  trace := ⟨[], by simp [State.setReactor], by simp⟩

lemma Calm.trans {s₁ s₂ s₃ : State} (h : Calm s₁ s₂ c) (h' : Calm s₂ s₃ c) : Calm s₁ s₃ c := by
  obtain ⟨es, ht, hes⟩ := h.trace
  obtain ⟨es', ht', hes'⟩ := h'.trace
  refine ⟨h'.queue.trans h.queue, h'.subscriptions.trans h.subscriptions,
    h'.flight.trans h.flight, h'.writes.trans h.writes, fun hl => h.live (h'.live hl),
    fun hb => h'.broken (h.broken hb), es ++ es', ?_, ?_⟩
  · rw [ht', ht, List.append_assoc]
  · intro e he
    rcases List.mem_append.mp he with he | he
    · exact hes e he
    · exact hes' e he

lemma calm_releaseLocked (s : State) (caller : Caller) : Calm s (s.releaseLocked caller) c := by
  rcases releaseLocked_cases s caller with ⟨-, heq⟩ | ⟨c', -, -, heq⟩
  · rw [heq]
    exact ⟨rfl, rfl, rfl, rfl, id, id, [], by simp, by simp⟩
  · rw [heq]
    exact ⟨rfl, rfl, rfl, rfl, fun h => absurd h.2.2 (by simp), id, [_], rfl, by simp [Event.Calm]⟩

lemma calm_stop (s : State) (t : ℕ) : Calm s (s.stop t) c := by
  apply (calm_releaseLocked s (.stop t)).trans
  rw [stop_eq]
  exact ⟨rfl, rfl, rfl, rfl, fun h => absurd h (not_live_of_broken rfl), fun _ => rfl, _, rfl,
    by cases s.ctx <;> simp [Event.Calm]⟩

lemma calm_readClosed (s : State) (caller : Caller) : Calm s (s.handleReadClosed caller) c := by
  have hbroken : Calm s { s with broken := true } c :=
    ⟨rfl, rfl, rfl, rfl, fun h => absurd h (not_live_of_broken rfl), fun _ => rfl, [],
      by simp, by simp⟩
  exact hbroken.trans (calm_releaseLocked _ caller)

/-- What a move does to the queue. -/
inductive QueueMove (s : State) (w : ℕ) (pc : Pc Once) : Action → State → Pc Once → Prop
  /-- no connection is under way after it -/
  | resting {a : Action} {s' : State} {pc' : Pc Once} (hpc : ∀ k, pc' = .once k → k = .fill) :
    QueueMove s w pc a s' pc'
  | calm {a : Action} {s' : State} (h : ∀ c, Calm s s' c) : QueueMove s w pc a s' pc
  | send (request : MarketDataRequest) (remember : Bool) :
    QueueMove s w pc (.send request remember) (s.send ⟨request, remember⟩) pc
  | fill {a : Action} (hpc : pc = .once .fill) (hstopping : s.stopping = false) :
    QueueMove s w pc a (s.fill w) (.once (.startCall s.nextConn))
  | startCall {a : Action} {s' : State} (c : ℕ) (hpc : pc = .once (.startCall c))
    (h : Calm s s' c) :
    QueueMove s w pc a s' (.once (.publish c))
  | publish {a : Action} (c : ℕ) (hpc : pc = .once (.publish c)) :
    QueueMove s w pc a (s.publish w c) (.once (.waiting c))
  | writeDone {a : Action} (c : ℕ) (ok : Bool) (hactive : s.Active c)
    (hwrites : 0 < (s.reactors c).writes) :
    QueueMove s w pc a ((s.setReactor c
      { s.reactors c with writes := (s.reactors c).writes - 1 }).handleWriteDone c ok) pc

lemma Move.queueMove (hm : Move cfg s w pc a s' w' pc') : QueueMove s w pc a s' pc' := by
  cases hm with
  | launch => exact .resting (by simp)
  | joinable => exact .calm fun c => ⟨rfl, rfl, rfl, rfl, id, id, [], by simp, by simp⟩
  | stop t => exact .calm fun c => calm_stop s t
  | returnStop t target =>
    exact .calm fun c => ⟨rfl, rfl, rfl, rfl, id, id, [_], rfl, calm_session [_]⟩
  | send request remember => exact .send request remember
  | run worker es _ _ hstep => exact .resting fun k hk => Worker.eq_first_of_step hstep hk
  | cancelled => exact .resting (by simp)
  | fill hpc hstopping => exact .fill hpc hstopping
  | startCall c hpc =>
    have hwrites : ((s.startCall w c).reactors c).writes = (s.reactors c).writes := by
      simp [State.startCall, State.emit, State.setPc, State.setReactor]
    exact .startCall c hpc ⟨rfl, rfl, rfl, hwrites, id, id, [_], rfl, by simp [Event.Calm]⟩
  | publish c hpc => exact .publish c hpc
  | finishOnce => exact .resting (by simp)
  | response c r =>
    refine .calm fun c' => ?_
    unfold State.handleResponse
    split
    · exact calm_setReactor s c c' _ _ _
    · exact (calm_setReactor s c c' _ _ _).trans
        ⟨rfl, rfl, rfl, rfl, id, id, [], by simp [State.setReactor], by simp⟩
  | readClosed c =>
    exact .calm fun c' => (calm_setReactor s c c' _ _ _).trans (calm_readClosed _ _)
  | connected c r =>
    exact .calm fun c' =>
      (calm_setReactor s c c' _ _ _).trans ⟨rfl, rfl, rfl, rfl, id, id, [_], rfl, calm_session [_]⟩
  | handled c call calls =>
    exact .calm fun c' =>
      (calm_setReactor s c c' _ _ _).trans ⟨rfl, rfl, rfl, rfl, id, id, [_], rfl, calm_session [_]⟩
  | startRead c => exact .calm fun c' => calm_setReactor s c c' _ _ _
  | writeDone c ok hactive hwrites => exact .writeDone c ok hactive hwrites
  | done c status =>
    exact .calm fun c' => (calm_setReactor s c c' _ _ _).trans
      ⟨rfl, rfl, rfl, rfl, fun hlive => absurd hlive.1 (by simp [State.emit, State.handleDone]),
        id, [_], rfl, by simp [Event.Calm]⟩
  | removeHold caller c =>
    exact .calm fun c' => (calm_setReactor s c c' _ _ _).trans
      ⟨rfl, rfl, rfl, rfl, id, id, [_], rfl, by simp [Event.Calm]⟩

/-! ## Writes -/

/-- Starting a write hands over the head of the queue. -/
lemma told_maybeWriteLocked (s : State) (c : ℕ) (hc : s.reactor = some c) :
    told s.maybeWriteLocked c = told s c := by
  rcases maybeWriteLocked_cases s with ⟨-, heq⟩ | ⟨c', next, rest, hlive, -, hqueue, heq⟩
  · rw [heq]
  · obtain rfl : c' = c := Option.some.inj (hlive.1.symm.trans hc)
    unfold told
    rw [heq, handed_append, hqueue]
    simp [handed]

lemma trace_maybeWriteLocked (s : State) (c : ℕ) :
    ∃ es, s.maybeWriteLocked.trace = s.trace ++ es ∧ sends es = [] ∧ ∀ e ∈ es, ¬ e.Opens c := by
  rcases maybeWriteLocked_cases s with ⟨-, heq⟩ | ⟨c', next, rest, -, -, -, heq⟩
  · exact ⟨[], by simp [heq], rfl, by simp⟩
  · refine ⟨[.startWrite c' next], by rw [heq], rfl, by simp [Event.Opens]⟩

lemma live_maybeWriteLocked (s : State) (c : ℕ) : s.maybeWriteLocked.Live c ↔ s.Live c := by
  rcases maybeWriteLocked_cases s with ⟨-, heq⟩ | ⟨c', next, rest, -, -, -, heq⟩ <;>
    simp [heq, State.Live]

lemma broken_maybeWriteLocked (s : State) : s.maybeWriteLocked.broken = s.broken := by
  rcases maybeWriteLocked_cases s with ⟨-, heq⟩ | ⟨c', next, rest, -, -, -, heq⟩ <;> rw [heq]

lemma Flowing.maybeWriteLocked (h : Flowing s c) (hc : s.reactor = some c) :
    Flowing s.maybeWriteLocked c := by
  obtain ⟨es, ht, hsends, hopens⟩ := trace_maybeWriteLocked s c
  apply h.append ht hopens
  rw [told_maybeWriteLocked s c hc, hsends, List.append_nil]

/-- Starting a write if none is in flight leaves no request waiting without one. -/
lemma draining_maybeWriteLocked (hlive : s.Live c)
    (hidle : s.writeInFlight = false → (s.reactors c).writes = 0)
    (hflight : s.writeInFlight = true → (s.reactors c).writes = 1) :
    Draining s.maybeWriteLocked c := by
  rcases maybeWriteLocked_cases s with ⟨hwhy, heq⟩ | ⟨c', next, rest, hlive', hnone, -, heq⟩
  · rw [heq]
    refine ⟨?_, hflight⟩
    intro hne
    exact (hwhy c hlive).resolve_left hne
  · obtain rfl : c' = c := Option.some.inj (hlive'.1.symm.trans hlive.1)
    rw [heq]
    refine ⟨fun _ => rfl, fun _ => ?_⟩
    simp [hidle hnone]

/-! ## Moves of the queue -/

/-- A live connection is not stopping. -/
lemma not_stopping_of_live (hrel : Released s) (hlive : s.Live c) : s.stopping = false := by
  -- a stopping stream has given up the hold
  by_contra hstop
  have hset := hrel c hlive.1 (Or.inr (by simpa using hstop))
  exact absurd (hset.symm.trans hlive.2.2) (by simp)

/-- A stream that is live after `send` was live before, and has queued the request. -/
lemma send_of_live (hrel : Released s) {o : Outgoing} (hlive : (s.send o).Live c) :
    s.Live c ∧ s.send o =
      State.maybeWriteLocked
        { s with
          subscriptions := s.recorded o
          trace := s.trace ++ [.sent o true]
          writeQueue := s.writeQueue ++ [o] } := by
  rcases send_cases s o with ⟨hstop, heq⟩ | ⟨-, hnot, heq⟩ | ⟨c', -, -, heq⟩
  · rw [heq] at hlive
    exact absurd (hstop.symm.trans (not_stopping_of_live hrel hlive)) (by simp)
  · rw [heq] at hlive
    exact absurd hlive (hnot c)
  · rw [heq, live_maybeWriteLocked] at hlive
    exact ⟨hlive, heq⟩

/-- A stream that is live after the publication has not given up the hold in it. -/
lemma publish_of_live (hdone : s.done = false) (hlive : (s.publish w c).Live c) :
    (s.withReactor w c).Live c ∧ s.publish w c = (s.withReactor w c).maybeWriteLocked := by
  rcases publish_cases s w c with ⟨hd, -⟩ | ⟨-, -, -, heq⟩ | ⟨-, -, heq⟩
  · exact absurd (hdone.symm.trans hd) (by simp)
  · rw [heq] at hlive
    have hset := holdReleased_releaseLocked _ _ hlive.1
    exact absurd (hset.symm.trans hlive.2.2) (by simp)
  · rw [heq, live_maybeWriteLocked] at hlive
    exact ⟨hlive, heq⟩

/-- A stream that is live after a write was live before, and the write has succeeded. -/
lemma writeDone_of_live {r : Reactor} {ok : Bool}
    (hlive : ((s.setReactor c r).handleWriteDone c ok).Live c) : ok = true ∧ s.Live c := by
  cases ok with
  | false =>
    have hset := holdReleased_releaseLocked _ _ hlive.1
    exact absurd (hset.symm.trans hlive.2.2) (by simp)
  | true =>
    simp only [State.handleWriteDone, if_true] at hlive
    rw [live_maybeWriteLocked] at hlive
    exact ⟨rfl, hlive⟩

lemma queueAt_fill (hconn : Conn s .none) (hrec : Recorded s) (hrun : s.stopping = false) :
    Filled (s.fill w) s.nextConn := by
  -- the connection is new: nothing was handed out on it
  have hfresh := (hconn.fresh s.nextConn le_rfl).2
  unfold State.fill
  rw [if_neg (by simp [hrun])]
  refine ⟨s.trace, _, [], rfl, ?_, ?_, ?_⟩
  · intro e he hopens
    rw [List.append_nil] at he
    have hconn? := hfresh e he
    cases e <;> simp_all [Event.Opens, Event.conn?]
  · rw [← hrec]
  · unfold told
    simp only [State.emit, State.setPc]
    rw [handed_append, handed_of_fresh hfresh]
    rfl

/-- `send` appends to the queue of a live connection, and to no other. -/
lemma queueAt_send (h : QueueAt s pc) (hconn : ConnAt s pc) (o : Outgoing) :
    QueueAt (s.send o) pc := by
  obtain ⟨g, hg, hconn, hrel⟩ := hconn
  -- before the publication the queue is left alone
  have hgap : ∀ c, s.reactor = none → Filled s c → Filled (s.send o) c := by
    intro c hreactor hfilled
    rcases send_cases s o with ⟨-, heq⟩ | ⟨-, -, heq⟩ | ⟨c', -, hlive, -⟩
    · rw [heq]
      exact hfilled.append rfl (by simp [Event.Opens]) (by simp [told, handed])
    · rw [heq]
      exact hfilled.append rfl (by simp [Event.Opens]) (by simp [told, handed])
    · exact absurd (hreactor.symm.trans hlive.1) (by simp)
  unfold QueueAt at *
  split at h
  · obtain rfl : g = _ := hg
    exact hgap _ hconn.reactor h
  · obtain rfl : g = _ := hg
    exact hgap _ hconn.reactor h
  · next c =>
    intro hlive'
    -- the request is appended, and sent at once if no write is in flight
    obtain ⟨hlive, heq⟩ := send_of_live hrel hlive'
    obtain ⟨hflow, hdrain⟩ := h hlive
    obtain rfl := hconn.eq_published hlive.1
    rw [heq]
    refine ⟨Flowing.maybeWriteLocked ?_ hlive.1, ?_⟩
    · apply hflow.append rfl (by simp [Event.Opens])
      simp [told, handed, sends]
    · exact draining_maybeWriteLocked hlive (hconn.flight _ rfl) hdrain.2
  · trivial

/-- The publication: the snapshot is told, and the first write is started. -/
lemma queueAt_publish (h : Filled s c) (hconn : Conn s (.started c)) :
    (s.publish w c).Live c → Flowing (s.publish w c) c ∧ Draining (s.publish w c) c := by
  obtain ⟨-, hdone, -, hflight, -⟩ := hconn.own
  -- nothing was sent since the publication, which is now
  have hflow : Flowing (s.withReactor w c) c := by
    obtain ⟨pre, snapshot, mid, htrace, hopens, hsnapshot, htold⟩ := h
    refine ⟨pre, snapshot, mid, [], ?_, ?_, hsnapshot, ?_⟩
    · simp [State.withReactor, htrace]
    · simpa using hopens
    · rw [← htold]
      simp [told, handed, sends, State.withReactor, State.setPc]
  intro hlive'
  obtain ⟨hlive, heq⟩ := publish_of_live hdone hlive'
  rw [heq]
  refine ⟨hflow.maybeWriteLocked rfl, draining_maybeWriteLocked hlive (hconn.flight c rfl) ?_⟩
  intro hset
  exact absurd (hflight.symm.trans hset) (by simp)

/-- A completed write makes room for the next one; a failed one breaks the stream. -/
lemma queueAt_writeDone (h : s.Live c → Flowing s c ∧ Draining s c)
    (hconn : Conn s (.published c)) (ok : Bool) :
    let s' := (s.setReactor c
      { s.reactors c with writes := (s.reactors c).writes - 1 }).handleWriteDone c ok
    s'.Live c → Flowing s' c ∧ Draining s' c := by
  intro s' hlive'
  obtain ⟨rfl, hlive⟩ := writeDone_of_live hlive'
  obtain ⟨hflow, -⟩ := h hlive
  have hcomplete := hconn.completeWrite false
  refine ⟨Flowing.maybeWriteLocked ?_ hlive.1, ?_⟩
  · apply hflow.append (List.append_nil s.trace).symm (by simp)
    simp [told, sends]
  · exact draining_maybeWriteLocked hlive (hcomplete.flight c rfl) (by simp)

/-- **Every move keeps the queue invariant.** -/
lemma QueueAt.move (h : QueueAt s pc) (hconn : ConnAt s pc) (hrec : Recorded s)
    (hm : QueueMove s w pc a s' pc') : QueueAt s' pc' := by
  cases hm with
  | resting hpc =>
    unfold QueueAt
    split
    · exact absurd (hpc _ rfl) (by simp)
    · exact absurd (hpc _ rfl) (by simp)
    · exact absurd (hpc _ rfl) (by simp)
    · trivial
  | calm hcalm => exact h.calm hcalm
  | send request remember => exact queueAt_send h hconn _
  | fill hpc hstopping =>
    subst hpc
    obtain ⟨g, hg, hconn, -⟩ := hconn
    obtain rfl : g = .none := hg
    exact queueAt_fill hconn hrec hstopping
  | startCall c hpc hcalm =>
    subst hpc
    exact hcalm.filled h
  | publish c hpc =>
    subst hpc
    obtain ⟨g, hg, hconn, -⟩ := hconn
    obtain rfl : g = .started c := hg
    exact queueAt_publish h hconn
  | writeDone c ok hactive hwrites =>
    obtain ⟨g, hg, hconn, -⟩ := hconn
    obtain rfl := hconn.stage_of_writes hactive hwrites
    obtain rfl := pc_of_published hg
    exact queueAt_writeDone h hconn ok

/-- Every reachable state has the connection invariant and the queue invariant. -/
lemma queueAt_of_reachable {ok : State → Action → Prop} (hok : ∀ s a, ok s a → LaunchSafe s a)
    (h : Reachable (system cfg) ok s) : ∃ w pc, s.threads.Current w pc ∧ QueueAt s pc := by
  apply invariant_of_move (J := fun s _ pc => QueueAt s pc) hok trivial ?_ h
  intro s a s' w pc w' pc' hreach hcur _ hm hqueue
  exact hqueue.move (connAt_of_current hok hreach hcur) (registry_of_reachable hreach)
    hm.queueMove

/-- **Outgoing writes are first in, first out, with no loss and no duplication.** On a live
connection the requests handed to `StartWrite`, followed by the queue, are the snapshot of the
registry that `run_once` took, in key order, followed by the requests of all calls of `send`
since the reactor was published. A queued request has a write in flight before it. The calls of
`start()` and `stop()` may come in any order that leaves one worker. -/
theorem writes_fifo (h : Reachable (system cfg) LaunchSafe s) (hlive : s.Live c) :
    (∃ pre snapshot mid post,
      s.trace = pre ++ .filled c snapshot :: (mid ++ .published c :: post) ∧
      (∀ e ∈ pre ++ mid ++ post, ¬ e.Opens c) ∧
      snapshot = replay (recordAll (remembered pre)) ∧
      handed c s.trace ++ s.writeQueue = replayed snapshot ++ sends post) ∧
    (s.writeQueue ≠ [] → s.writeInFlight = true ∧ (s.reactors c).writes = 1) := by
  have hok : ∀ s a, LaunchSafe s a → LaunchSafe s a := fun _ _ hsafe => hsafe
  obtain ⟨w, pc, hcur, hqueue⟩ := queueAt_of_reachable hok h
  -- the live reactor belongs to the connection the current worker waits for
  obtain ⟨g, hg, hconn, -⟩ := connAt_of_current hok h hcur
  obtain rfl := hconn.eq_published hlive.1
  obtain rfl := pc_of_published hg
  obtain ⟨hflow, hdrain⟩ := hqueue hlive
  refine ⟨hflow, ?_⟩
  intro hne
  exact ⟨hdrain.1 hne, hdrain.2 (hdrain.1 hne)⟩

/-- One request in flight and one queued behind it. -/
theorem writes_fifo_two_sent :
    ∃ s, Reachable (system demoConfig) LaunchSafe s ∧ s.Live 0 ∧ s.writeQueue ≠ [] ∧
      s.writeInFlight = true := by
  obtain ⟨s, hreach, hp⟩ := exists_reachable_of_run (system demoConfig) NonOverlap
    (fun s => decide (s.Live 0) && !s.writeQueue.isEmpty)
    (.send (tradesRequest .subscribe) true ::
      connectSteps ++ [.send .getMySubscriptions false, .onWriteDone 0 true,
        .send (tradesRequest .unsubscribe) true])
    (by decide +kernel)
  simp only [Bool.and_eq_true, decide_eq_true_eq, Bool.not_eq_true',
    List.isEmpty_eq_false_iff] at hp
  have hsafe := hreach.mono NonOverlap.launchSafe
  exact ⟨s, hsafe, hp.1, hp.2, ((writes_fifo hsafe hp.1).2 hp.2).1⟩

/-! ## The registry and the server -/

/-- What the server was told, or is queued to be told, of the registry: the replayed requests
and the ones sent with `remember`. -/
def toldRegistry (s : State) (c : ℕ) : List MarketDataRequest :=
  ((told s c).filter Outgoing.remembered).map Outgoing.request

/-- Between the queue fill and the publication of a connection that is neither broken nor
stopping. -/
def State.InGap (s : State) : Prop :=
  s.ctx.isSome ∧ s.reactor = none ∧ s.done = false ∧ s.stopping = false ∧ s.broken = false

instance (s : State) : Decidable s.InGap := inferInstanceAs (Decidable (_ ∧ _))

/-- No worker is launched beside one that is being joined, and no remembered request changes
the registry in the gap between the queue fill and the publication of a connection that is not
broken. -/
def GapFree (s : State) (a : Action) : Prop :=
  LaunchSafe s a ∧
    ∀ request, a = .send request true → s.InGap →
      recordRequest s.subscriptions request = s.subscriptions

/-- The registry invariant, by the point of the worker that runs. A connection that is broken
before its publication does not become live. -/
def ToldAt (s : State) : Pc Once → Prop
  | .once (.startCall c) | .once (.publish c) =>
    s.broken = false → toldRegistry s c = replay s.subscriptions
  | .once (.waiting c) => s.Live c → (toldRegistry s c).foldl recordRequest ∅ = s.subscriptions
  | _ => True

lemma Calm.toldRegistry (h : Calm s s' c) :
    MarketDataStream.toldRegistry s' c = toldRegistry s c := by
  unfold MarketDataStream.toldRegistry
  rw [h.told]

lemma ToldAt.calm (h : ToldAt s pc) (hcalm : ∀ c, Calm s s' c) : ToldAt s' pc := by
  unfold ToldAt at *
  split
  · next c =>
    intro hwhole
    rw [(hcalm c).toldRegistry, (hcalm c).subscriptions]
    exact h ((hcalm c).whole hwhole)
  · next c =>
    intro hwhole
    rw [(hcalm c).toldRegistry, (hcalm c).subscriptions]
    exact h ((hcalm c).whole hwhole)
  · next c =>
    intro hlive
    rw [(hcalm c).toldRegistry, (hcalm c).subscriptions]
    exact h ((hcalm c).live hlive)
  · trivial

lemma toldRegistry_maybeWriteLocked (s : State) (c : ℕ) (hc : s.reactor = some c) :
    toldRegistry s.maybeWriteLocked c = toldRegistry s c := by
  unfold toldRegistry
  rw [told_maybeWriteLocked s c hc]

/-- The entries of a registry are SUBSCRIBE requests, so replaying them records them. -/
lemma foldl_recordRequest_replay {reg : Registry} (h : SelfDescribing reg) :
    (replay reg).foldl recordRequest ∅ = reg := by
  -- on these requests `recordRequest` is `rememberLocked`
  have hremember : (replay reg).foldl recordRequest ∅ = (replay reg).foldl rememberLocked ∅ := by
    apply List.foldl_ext
    intro reg' r hr
    unfold replay at hr
    obtain ⟨⟨key, r'⟩, hmem, rfl⟩ := List.mem_map.mp hr
    rw [Std.ExtTreeMap.mem_toList_iff_getElem?_eq_some] at hmem
    unfold recordRequest
    rw [if_pos (h key r' hmem).2]
  rw [hremember]
  exact replay_rebuilds h (List.Perm.refl _)

lemma broken_send (s : State) (o : Outgoing) : (s.send o).broken = s.broken := by
  rcases send_cases s o with ⟨-, heq⟩ | ⟨-, -, heq⟩ | ⟨c', -, -, heq⟩
  · rw [heq]
  · rw [heq]
  · rw [heq, broken_maybeWriteLocked]

lemma toldAt_send (h : ToldAt s pc) (hconn : ConnAt s pc) {request : MarketDataRequest}
    {remember : Bool} (hgap : GapFree s (.send request remember)) :
    ToldAt (s.send ⟨request, remember⟩) pc := by
  obtain ⟨g, hg, hconn, hrel⟩ := hconn
  -- in the gap the queue stays as it is, and so must the registry
  have hkept : ∀ c, s.ctx = some c → s.reactor = none → s.done = false →
      (s.broken = false → toldRegistry s c = replay s.subscriptions) →
      (s.send ⟨request, remember⟩).broken = false →
      toldRegistry (s.send ⟨request, remember⟩) c
        = replay (s.send ⟨request, remember⟩).subscriptions := by
    intro c hctx hreactor hdone htold hwhole
    rw [broken_send] at hwhole
    have htold := htold hwhole
    rcases send_cases s ⟨request, remember⟩ with
      ⟨-, heq⟩ | ⟨hrun, -, heq⟩ | ⟨c', -, hlive, -⟩
    · rw [heq, ← htold]
      simp [toldRegistry, told, handed]
    · -- a remembered request is where the assumption on the gap is used
      have hsame : s.recorded ⟨request, remember⟩ = s.subscriptions := by
        unfold State.recorded
        cases remember with
        | false => rfl
        | true => exact hgap.2 request rfl ⟨by simp [hctx], hreactor, hdone, hrun, hwhole⟩
      rw [heq]
      simp only [hsame, ← htold]
      simp [toldRegistry, told, handed]
    · exact absurd (hreactor.symm.trans hlive.1) (by simp)
  unfold ToldAt at *
  split at h
  · next c =>
    obtain rfl : g = .bound c := hg
    exact hkept c hconn.ctx hconn.reactor hconn.own.2.1 h
  · next c =>
    obtain rfl : g = .started c := hg
    exact hkept c hconn.ctx hconn.reactor hconn.own.2.1 h
  · next c =>
    intro hlive'
    obtain ⟨hlive, heq⟩ := send_of_live hrel hlive'
    rw [heq, (sameRegistry_maybeWriteLocked _).1,
      toldRegistry_maybeWriteLocked _ _ (by exact hlive.1)]
    -- the request is recorded at the end of the fold exactly when it is remembered
    have hold := h hlive
    unfold State.recorded
    cases remember with
    | false =>
      simp only [Bool.false_eq_true, if_false]
      rw [← hold]
      simp [toldRegistry, told, handed]
    | true =>
      simp only [if_true]
      rw [← hold]
      simp [toldRegistry, told, handed]
  · trivial

lemma toldRegistry_replayed (snapshot : List MarketDataRequest) :
    ((replayed snapshot).filter Outgoing.remembered).map Outgoing.request = snapshot := by
  unfold replayed
  rw [List.filter_eq_self.mpr (by simp), List.map_map]
  exact List.map_id snapshot

lemma toldAt_writeDone
    (h : s.Live c → (toldRegistry s c).foldl recordRequest ∅ = s.subscriptions) (ok : Bool) :
    let s' := (s.setReactor c
      { s.reactors c with writes := (s.reactors c).writes - 1 }).handleWriteDone c ok
    s'.Live c → (toldRegistry s' c).foldl recordRequest ∅ = s'.subscriptions := by
  intro s' hlive'
  obtain ⟨rfl, hlive⟩ := writeDone_of_live hlive'
  simp only [s', State.handleWriteDone, if_true]
  rw [(sameRegistry_maybeWriteLocked _).1,
    toldRegistry_maybeWriteLocked _ _ (by exact hlive.1)]
  exact h hlive

lemma toldAt_publish (h : s.broken = false → toldRegistry s c = replay s.subscriptions)
    (hself : SelfDescribing s.subscriptions) (hdone : s.done = false) :
    (s.publish w c).Live c →
      (toldRegistry (s.publish w c) c).foldl recordRequest ∅ = (s.publish w c).subscriptions := by
  intro hlive
  obtain ⟨hlive', heq⟩ := publish_of_live hdone hlive
  -- nothing changed since the fill, so the server is told the registry itself
  have htold : toldRegistry (s.withReactor w c) c = replay s.subscriptions := by
    rw [← h hlive'.2.1]
    simp [toldRegistry, told, handed, State.withReactor, State.setPc]
  rw [heq, (sameRegistry_maybeWriteLocked _).1,
    toldRegistry_maybeWriteLocked _ _ rfl, htold]
  exact foldl_recordRequest_replay hself

/-- **Every admitted move keeps the registry invariant.** -/
lemma ToldAt.move (h : ToldAt s pc) (hconn : ConnAt s pc) (hself : SelfDescribing s.subscriptions)
    (hgap : GapFree s a) (hm : QueueMove s w pc a s' pc') : ToldAt s' pc' := by
  cases hm with
  | resting hpc =>
    unfold ToldAt
    split
    · exact absurd (hpc _ rfl) (by simp)
    · exact absurd (hpc _ rfl) (by simp)
    · exact absurd (hpc _ rfl) (by simp)
    · trivial
  | calm hcalm => exact h.calm hcalm
  | send request remember => exact toldAt_send h hconn hgap
  | fill hpc hstopping =>
    subst hpc
    obtain ⟨g, hg, hconn, -⟩ := hconn
    obtain rfl : g = .none := hg
    have hfresh := (hconn.fresh s.nextConn le_rfl).2
    show (s.fill w).broken = false →
      toldRegistry (s.fill w) s.nextConn = replay (s.fill w).subscriptions
    intro _
    unfold State.fill
    rw [if_neg (by simp [hstopping])]
    simp only [toldRegistry, told, State.emit, State.setPc]
    rw [handed_append, handed_of_fresh hfresh]
    exact toldRegistry_replayed _
  | startCall c hpc hcalm =>
    subst hpc
    show s'.broken = false → MarketDataStream.toldRegistry s' c = replay s'.subscriptions
    intro hwhole
    rw [hcalm.toldRegistry, hcalm.subscriptions]
    exact h (hcalm.whole hwhole)
  | publish c hpc =>
    subst hpc
    obtain ⟨g, hg, hconn, -⟩ := hconn
    obtain rfl : g = .started c := hg
    exact toldAt_publish h hself hconn.own.2.1
  | writeDone c ok hactive hwrites =>
    obtain ⟨g, hg, hconn, -⟩ := hconn
    obtain rfl := hconn.stage_of_writes hactive hwrites
    obtain rfl := pc_of_published hg
    exact toldAt_writeDone h ok

/-- Every reachable state has the registry invariant; what it says of a live connection. -/
lemma foldl_toldRegistry (h : Reachable (system cfg) GapFree s) (hlive : s.Live c) :
    (toldRegistry s c).foldl recordRequest ∅ = s.subscriptions := by
  have hok : ∀ s a, GapFree s a → LaunchSafe s a := fun _ _ hgap => hgap.1
  have htold : ∃ w pc, s.threads.Current w pc ∧ ToldAt s pc := by
    apply invariant_of_move (J := fun s _ pc => ToldAt s pc) hok trivial ?_ h
    intro s a s' w pc w' pc' hreach hcur hgap hm htold
    exact htold.move (connAt_of_current hok hreach hcur) (selfDescribing_of_reachable hreach) hgap
      hm.queueMove
  obtain ⟨w, pc, hcur, htold⟩ := htold
  obtain ⟨g, hg, hconn, -⟩ := connAt_of_current hok h hcur
  obtain rfl := hconn.eq_published hlive.1
  obtain rfl := pc_of_published hg
  exact htold hlive

/-- **No subscription change is lost on a live connection**, in every run in which no
remembered request changes the registry between the queue fill and the publication of a
connection that is not broken. -/
theorem told_matches_registry (h : Reachable (system cfg) GapFree s) (hlive : s.Live c) :
    (toldRegistry s c).foldl recordRequest ∅ = s.subscriptions :=
  foldl_toldRegistry h hlive

/-- No worker is launched beside a `stop()`, and nothing is sent in the gap. -/
def NoGapSend (s : State) (a : Action) : Prop :=
  NonOverlap s a ∧
    match a with
    | .send _ _ => ¬ s.InGap
    | _ => True

instance (s : State) (a : Action) : Decidable (NoGapSend s a) :=
  match a with
  | .send .. => inferInstanceAs (Decidable (_ ∧ ¬ s.InGap))
  | .start | .stop _ | .returnStop .. | .worker _ | .onReadDone .. | .readStep _
  | .onWriteDone .. | .onDone .. | .removeHold .. => inferInstanceAs (Decidable (_ ∧ True))

lemma NoGapSend.gapFree {s : State} {a : Action} (h : NoGapSend s a) : GapFree s a := by
  refine ⟨h.1.launchSafe, ?_⟩
  intro request ha hgap
  subst ha
  exact absurd hgap h.2

/-- A subscription before the connection and a cancellation on it. -/
theorem told_matches_registry_live :
    ∃ s, Reachable (system demoConfig) GapFree s ∧ s.Live 0 ∧
      (toldRegistry s 0).foldl recordRequest ∅ = s.subscriptions := by
  obtain ⟨s, hreach, hp⟩ := exists_reachable_of_run (system demoConfig) NoGapSend
    (fun s => decide (s.Live 0))
    (.send (tradesRequest .subscribe) true ::
      connectSteps ++ [.send (tradesRequest .unsubscribe) true, .onWriteDone 0 true])
    (by decide +kernel)
  have hgap := hreach.mono fun _ _ h => NoGapSend.gapFree h
  have hlive : s.Live 0 := of_decide_eq_true hp
  exact ⟨s, hgap, hlive, told_matches_registry hgap hlive⟩

/-- A subscription sent between the queue fill and the publication reaches the registry and
never the server. -/
theorem gap_send_is_lost :
    ¬ ∀ (cfg : Config) (s : State) (c : ℕ), Reachable (system cfg) AnyOrder s → s.Live c →
      (toldRegistry s c).foldl recordRequest ∅ = s.subscriptions := by
  intro hall
  -- the fourth worker step starts the call, and the last one publishes the reactor
  obtain ⟨s, hreach, hp⟩ := exists_reachable_of_run (system demoConfig) AnyOrder
    (fun s => decide (s.Live 0) && decide (toldRegistry s 0 = []) &&
      s.subscriptions["trades|SBER"]?.isSome)
    [.start, .worker 0, .worker 0, .worker 0, .worker 0,
      .send (tradesRequest .subscribe) true, .worker 0]
    (by decide +kernel)
  simp only [Bool.and_eq_true, decide_eq_true_eq] at hp
  obtain ⟨⟨hlive, htold⟩, hentry⟩ := hp
  have hempty := hall demoConfig s 0 hreach hlive
  rw [htold] at hempty
  rw [← hempty] at hentry
  exact absurd hentry (by simp)

end MarketDataStream
end TInvest
