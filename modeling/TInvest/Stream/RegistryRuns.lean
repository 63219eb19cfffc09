import TInvest.Stream.RegistryTheorems
import TInvest.Stream.MarketDataStreamSteps

/-!
# The registry along a run

What `subscriptions_` holds in every reachable state, whatever the threads do: the registry
is made by the requests that `send` accepted with `remember = true`, in the order of their
critical sections, and by nothing else.

* `registry_of_reachable` — the registry is the fold of the accepted requests;
* `last_decisive_request_wins` — one entry for each target whose last decisive request
  subscribes;
* `replay_lossless` — the queue a reconnect fills from it rebuilds it.
-/

namespace TInvest
namespace MarketDataStream

open Pb
open Lib.MapFold
open Lib.Transition

/-- The requests `send` accepted with `remember = true`, in order. -/
def remembered (trace : List Event) : List MarketDataRequest :=
  trace.filterMap fun
    | .sent ⟨request, true⟩ true => some request
    | _ => none

lemma remembered_append (l m : List Event) :
    remembered (l ++ m) = remembered l ++ remembered m :=
  List.filterMap_append

variable {cfg : Config} {s s' : State} {a : Action} {w : ℕ}

/-- `s'` has the registry and the accepted requests of `s`. -/
def SameRegistry (s s' : State) : Prop :=
  s'.subscriptions = s.subscriptions ∧ remembered s'.trace = remembered s.trace

lemma sameRegistry_releaseLocked (s : State) (caller : Caller) :
    SameRegistry s (s.releaseLocked caller) := by
  rcases releaseLocked_cases s caller with ⟨-, heq⟩ | ⟨c, -, -, heq⟩
  · rw [heq]
    exact ⟨rfl, rfl⟩
  · rw [heq]
    exact ⟨rfl, by simp [remembered]⟩

lemma sameRegistry_maybeWriteLocked (s : State) : SameRegistry s s.maybeWriteLocked := by
  rcases maybeWriteLocked_cases s with ⟨-, heq⟩ | ⟨c, next, rest, -, -, -, heq⟩
  · rw [heq]
    exact ⟨rfl, rfl⟩
  · rw [heq]
    exact ⟨rfl, by simp [remembered]⟩

lemma SameRegistry.trans {s₁ s₂ s₃ : State} (h : SameRegistry s₁ s₂)
    (h' : SameRegistry s₂ s₃) : SameRegistry s₁ s₃ :=
  ⟨h'.1.trans h.1, h'.2.trans h.2⟩

lemma sameRegistry_stop (s : State) (t : ℕ) : SameRegistry s (s.stop t) := by
  apply (sameRegistry_releaseLocked s (.stop t)).trans
  rw [stop_eq]
  refine ⟨rfl, ?_⟩
  cases s.ctx <;> simp [remembered]

lemma sameRegistry_publish (s : State) (w c : ℕ) : SameRegistry s (s.publish w c) := by
  have hpub : SameRegistry s (s.withReactor w c) :=
    ⟨rfl, by simp [State.withReactor, remembered]⟩
  rcases publish_cases s w c with ⟨-, heq⟩ | ⟨-, -, -, heq⟩ | ⟨-, -, heq⟩
  · rw [heq]
    exact ⟨rfl, rfl⟩
  · rw [heq]
    exact hpub.trans (sameRegistry_releaseLocked _ _)
  · rw [heq]
    exact hpub.trans (sameRegistry_maybeWriteLocked _)

lemma remembered_session (es : List (SessionEvent Call)) :
    remembered (es.map Event.session) = [] := by
  unfold remembered
  rw [List.filterMap_map, List.filterMap_eq_nil_iff]
  intro e _
  rfl

lemma sameRegistry_fill (s : State) (w : ℕ) : SameRegistry s (s.fill w) := by
  unfold State.fill
  split
  · exact ⟨rfl, rfl⟩
  · exact ⟨rfl, by simp [remembered, State.emit, State.setPc]⟩

lemma sameRegistry_handleResponse (s : State) (c : ℕ) (r : MarketDataResponse) :
    SameRegistry s (s.handleResponse cfg c r) := by
  unfold State.handleResponse
  split <;> exact ⟨rfl, rfl⟩

lemma sameRegistry_handleWriteDone (s : State) (c : ℕ) (ok : Bool) :
    SameRegistry s (s.handleWriteDone c ok) := by
  unfold State.handleWriteDone
  split
  · exact sameRegistry_maybeWriteLocked _
  · exact sameRegistry_releaseLocked _ _

/-- Only `send` touches the registry. -/
lemma sameRegistry_of_move {w' : ℕ} {pc pc' : Pc Once} (hm : Move cfg s w pc a s' w' pc')
    (hsend : ∀ request remember, a ≠ .send request remember) : SameRegistry s s' := by
  cases hm with
  | launch => exact ⟨rfl, by simp [remembered]⟩
  | joinable => exact ⟨rfl, rfl⟩
  | stop t => exact sameRegistry_stop s t
  | returnStop => exact ⟨rfl, by simp [remembered]⟩
  | send request remember => exact absurd rfl (hsend request remember)
  | run => exact ⟨rfl, by simp [remembered_append, remembered_session]⟩
  | cancelled => exact sameRegistry_fill s w
  | fill => exact sameRegistry_fill s w
  | startCall =>
    exact ⟨rfl, by simp [remembered, State.startCall, State.emit, State.setPc, State.setReactor]⟩
  | publish c => exact sameRegistry_publish s w c
  | finishOnce => exact ⟨rfl, rfl⟩
  | response c r => exact sameRegistry_handleResponse s c r
  | readClosed => exact sameRegistry_releaseLocked _ _
  | connected => exact ⟨rfl, by simp [remembered, State.emit, State.setReactor]⟩
  | handled => exact ⟨rfl, by simp [remembered, State.emit, State.setReactor]⟩
  | startRead => exact ⟨rfl, rfl⟩
  | writeDone c ok => exact sameRegistry_handleWriteDone _ c ok
  | done => exact ⟨rfl, by simp [remembered, State.emit, State.handleDone, State.setReactor]⟩
  | removeHold => exact ⟨rfl, by simp [remembered, State.emit, State.setReactor]⟩

/-- The registry agrees with the requests accepted so far. -/
def Recorded (s : State) : Prop := s.subscriptions = recordAll (remembered s.trace)

lemma recorded_send (h : Recorded s) (o : Outgoing) : Recorded (s.send o) := by
  unfold Recorded at *
  -- an accepted request is recorded exactly when it is remembered
  have haccepted : s.recorded o = recordAll (remembered (s.trace ++ [.sent o true])) := by
    unfold State.recorded
    rw [remembered_append]
    rcases o with ⟨request, _ | _⟩
    · simpa [remembered] using h
    · show recordRequest s.subscriptions request = recordAll (remembered s.trace ++ [request])
      rw [recordAll_concat, h]
  rcases send_cases s o with ⟨-, heq⟩ | ⟨-, -, heq⟩ | ⟨c, -, -, heq⟩
  · -- a stopping stream drops the request
    rw [heq]
    show s.subscriptions = recordAll (remembered (s.trace ++ [.sent o false]))
    rw [remembered_append, h]
    simp [remembered]
  · rw [heq]
    exact haccepted
  · rw [heq]
    obtain ⟨hsub, htrace⟩ := sameRegistry_maybeWriteLocked
      { s with
        subscriptions := s.recorded o
        trace := s.trace ++ [.sent o true]
        writeQueue := s.writeQueue ++ [o] }
    rw [hsub, htrace]
    exact haccepted

/-- **The registry is what the accepted requests make of it.** -/
lemma registry_of_reachable {ok : State → Action → Prop} (h : Reachable (system cfg) ok s) :
    Recorded s := by
  apply h.invariant (I := Recorded)
  · rfl
  · intro s a s' _ hrec _ hs
    by_cases hsend : ∃ request remember, a = .send request remember
    · obtain ⟨request, remember, rfl⟩ := hsend
      cases hs
      exact recorded_send hrec _
    · obtain ⟨w, pc, w', pc', hm⟩ := exists_move_of_step hs
      have hsame := sameRegistry_of_move hm (fun r b hab => hsend ⟨r, b, hab⟩)
      unfold Recorded at *
      rw [hsame.1, hsame.2, hrec]

lemma selfDescribing_of_reachable {ok : State → Action → Prop}
    (h : Reachable (system cfg) ok s) : SelfDescribing s.subscriptions := by
  rw [registry_of_reachable h]
  exact selfDescribing_recordAll _

/-! ## Last writer wins -/

/-- **Last writer wins.** In every reachable state a target has an entry exactly when the last
accepted request that decides about it subscribes. The entry is the one-instrument request of
the target's last occurrence there, with the request's options. There are no other entries,
and keys separate targets. -/
theorem last_decisive_request_wins (h : Reachable (system cfg) AnyOrder s) :
    (∀ t : Target,
      (s.subscriptions[t.key]?.isSome ↔
        ∃ r, lastDeciding (remembered s.trace) t = some r ∧ actionOf r = .subscribe) ∧
      ∀ r, lastDeciding (remembered s.trace) t = some r → actionOf r = .subscribe →
        ∃ j, IsLastIndex (targetsOf r) t j ∧ s.subscriptions[t.key]? = some (single r j) ∧
          targetsOf (single r j) = [t] ∧
          withoutInstruments (single r j) = withoutInstruments r) ∧
    (∀ key, s.subscriptions[key]?.isSome → ∃ t : Target, key = t.key) ∧
    (∀ (r r' : MarketDataRequest) (i i' : ℕ) (key key' : String),
      (keysOf r)[i]? = some key → (keysOf r')[i']? = some key' →
        (key = key' ↔ (targetsOf r)[i]? = (targetsOf r')[i']?)) := by
  obtain ⟨hentries, hkeys⟩ := registry_last_writer_wins (remembered s.trace)
  rw [← registry_of_reachable h] at hentries hkeys
  refine ⟨?_, hkeys, fun r r' i i' key key' hi hi' => keys_eq_iff hi hi'⟩
  intro t
  refine ⟨(hentries t).1, ?_⟩
  intro r hr hs
  obtain ⟨j, hj, hval⟩ := (hentries t).2 r hr hs
  refine ⟨j, hj, hval, ?_, ?_⟩
  · rw [targetsOf_single, hj.1]
    rfl
  · apply withoutInstruments_single
    exact (List.getElem?_eq_some_iff.mp (isLastIndex_key hj).1).1

/-- A trades request for one instrument. -/
def tradesRequest (action : SubscriptionAction) : MarketDataRequest :=
  .subscribeTradesRequest { subscriptionAction := action, instruments := [⟨"", "SBER"⟩] }

/-- A subscription that is the last word on its target has an entry. -/
theorem last_decisive_request_wins_subscribed :
    ∃ s, Reachable (system demoConfig) AnyOrder s ∧
      s.subscriptions["trades|SBER"]?.isSome := by
  obtain ⟨s, hreach, hp⟩ := exists_reachable_of_run (system demoConfig) AnyOrder
    (fun s => decide (remembered s.trace =
      [tradesRequest .unsubscribe, tradesRequest .subscribe]))
    [.send (tradesRequest .unsubscribe) true, .send (tradesRequest .subscribe) true]
    (by decide +kernel)
  rw [decide_eq_true_eq] at hp
  refine ⟨s, hreach, ?_⟩
  apply (((last_decisive_request_wins hreach).1 (.trades "SBER")).1).mpr
  rw [hp]
  exact ⟨tradesRequest .subscribe, by decide +kernel, rfl⟩

/-- The last request of a history that mentions a target, whatever its action. -/
def lastMentioning (history : List MarketDataRequest) (t : Target) : Option MarketDataRequest :=
  (history.filter (fun r => decide (t ∈ targetsOf r))).getLast?

/-- A request whose action is neither SUBSCRIBE nor UNSUBSCRIBE mentions its targets and
leaves their entries alone. -/
theorem unspecified_request_keeps_entry :
    ¬ ∀ (cfg : Config) (s : State), Reachable (system cfg) AnyOrder s → ∀ t : Target,
      (s.subscriptions[t.key]?.isSome ↔
        ∃ r, lastMentioning (remembered s.trace) t = some r ∧ actionOf r = .subscribe) := by
  intro hall
  -- subscribe, then mention the target again without an action
  obtain ⟨s, hreach, hp⟩ := exists_reachable_of_run (system demoConfig) AnyOrder
    (fun s => s.subscriptions["trades|SBER"]?.isSome &&
      decide (remembered s.trace = [tradesRequest .subscribe, tradesRequest .unspecified]))
    [.send (tradesRequest .subscribe) true, .send (tradesRequest .unspecified) true]
    (by decide +kernel)
  rw [Bool.and_eq_true, decide_eq_true_eq] at hp
  obtain ⟨hentry, htrace⟩ := hp
  obtain ⟨r, hr, hs⟩ := (hall demoConfig s hreach (.trades "SBER")).mp hentry
  rw [htrace, show lastMentioning [tradesRequest .subscribe, tradesRequest .unspecified]
    (.trades "SBER") = some (tradesRequest .unspecified) from by decide +kernel] at hr
  rw [← Option.some.inj hr] at hs
  exact absurd hs (by decide)

/-! ## Replay -/

/-- **Replay is lossless and self-describing.** In every reachable state each entry is a
SUBSCRIBE request whose only key is its own. So the queue `run_once` fills, in that or any
other order, rebuilds the registry. And splitting a request into its one-instrument requests
changes neither its effect on a registry nor its action and options. -/
theorem replay_lossless (h : Reachable (system cfg) AnyOrder s) :
    (∀ key r, s.subscriptions[key]? = some r → keysOf r = [key] ∧ actionOf r = .subscribe) ∧
    (∀ (w : ℕ) (queue : List MarketDataRequest), s.stopping = false →
      queue.Perm ((s.fill w).writeQueue.map Outgoing.request) →
        queue.foldl rememberLocked ∅ = s.subscriptions) ∧
    (∀ (reg : Registry) (q : MarketDataRequest),
      rememberLocked reg q
        = ((List.range (keysOf q).length).map (single q)).foldl rememberLocked reg) ∧
    (∀ (q : MarketDataRequest) (i : ℕ), i < (keysOf q).length →
      actionOf (single q i) = actionOf q ∧
        withoutInstruments (single q i) = withoutInstruments q) := by
  have hself := selfDescribing_of_reachable h
  refine ⟨hself, ?_, remember_split, ?_⟩
  · intro w queue hrun hperm
    apply replay_rebuilds hself
    -- the first critical section of `run_once` queues the registry and nothing else
    have hqueue : (s.fill w).writeQueue.map Outgoing.request = replay s.subscriptions := by
      unfold State.fill
      rw [if_neg (by simp [hrun])]
      simp [State.emit, State.setPc, Function.comp_def]
    rwa [hqueue] at hperm
  · intro q i hi
    exact ⟨actionOf_single q i, withoutInstruments_single hi⟩

/-- The replay of two subscriptions. -/
theorem replay_lossless_two :
    ∃ s, Reachable (system demoConfig) AnyOrder s ∧
      s.subscriptions["trades|SBER"]?.isSome ∧
      ∀ w, ((s.fill w).writeQueue.map Outgoing.request).reverse.foldl rememberLocked ∅
        = s.subscriptions := by
  obtain ⟨s, hreach, hp⟩ := exists_reachable_of_run (system demoConfig) AnyOrder
    (fun s => !s.stopping && s.subscriptions["trades|SBER"]?.isSome)
    [.send (tradesRequest .subscribe) true,
      .send (.subscribeInfoRequest
        { subscriptionAction := .subscribe, instruments := [⟨"", "SBER"⟩, ⟨"", "GAZP"⟩] }) true]
    (by decide +kernel)
  rw [Bool.and_eq_true, Bool.not_eq_true'] at hp
  refine ⟨s, hreach, hp.2, ?_⟩
  intro w
  exact (replay_lossless hreach).2.1 w _ hp.1 (List.reverse_perm _)

end MarketDataStream
end TInvest
