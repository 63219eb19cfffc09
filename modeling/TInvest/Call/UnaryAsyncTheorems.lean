import TInvest.Call.UnaryAsync

/-!
# Every asynchronous call is answered once

* `script` — what the trace holds of a call, from where the call stands;
* `calls_follow_script` — that is all it holds, in this order: the stub is invoked at most once,
  and only for an admitted call, the callback is called at most once, and `delete st` comes once,
  after it;
* `starts_bounded` — the stubs that asynchronous calls invoke stay within the limit of their group,
  whatever else asks the limiter.
-/

namespace TInvest
namespace UnaryAsync

open Lib.Transition
open Lib.FixedWindow
open Detail

section
variable {Req Resp : Type}

/-! ## Steps -/

/-- The next point of a call, and the event recorded on the way. -/
inductive Follows (config : Config) (id : ℕ) (call : Call Req Resp) :
    Point Resp → Event Req Resp → Prop
  | refuse (h : call.point = .asked false) :
    Follows config id call .refused (.callback id (.error limitExceeded))
  | start (h : call.point = .asked true) :
    Follows config id call .inFlight (.started id (setupContext config call.opts) call.req)
  | deliver (answer : Answer Resp) (h : call.point = .inFlight) :
    Follows config id call (.delivered answer) (.callback id (completion answer))
  | free (answer : Answer Resp) (h : call.point = .delivered answer) :
    Follows config id call (.freed answer) (.freed id)

lemma Follows.id {config : Config} {id : ℕ} {call : Call Req Resp} {point : Point Resp}
    {e : Event Req Resp} (h : Follows config id call point e) : e.id = id := by
  cases h <;> rfl

lemma proceed_cases {config : Config} {id : ℕ} {s s' : State Req Resp}
    (h : proceed config id s = some s') :
    ∃ call point e, s.calls id = some call ∧ Follows config id call point e ∧
      s' = s.advance id call point e := by
  rw [proceed] at h
  split at h
  · cases h
  · next call hcall =>
    split at h
    · next hpoint => exact ⟨call, _, _, hcall, .refuse hpoint, (Option.some.inj h).symm⟩
    · next hpoint => exact ⟨call, _, _, hcall, .start hpoint, (Option.some.inj h).symm⟩
    · cases h

lemma complete_cases {config : Config} {id : ℕ} {answer : Answer Resp} {s s' : State Req Resp}
    (h : complete id answer s = some s') :
    ∃ call point e, s.calls id = some call ∧ Follows config id call point e ∧
      s' = s.advance id call point e := by
  rw [complete] at h
  split at h
  · cases h
  · next call hcall =>
    split at h
    · next hpoint => exact ⟨call, _, _, hcall, .deliver answer hpoint, (Option.some.inj h).symm⟩
    · cases h

lemma delete_cases {config : Config} {id : ℕ} {s s' : State Req Resp}
    (h : delete id s = some s') :
    ∃ call point e, s.calls id = some call ∧ Follows config id call point e ∧
      s' = s.advance id call point e := by
  rw [delete] at h
  split at h
  · cases h
  · next call hcall =>
    split at h
    · next answer hpoint =>
      exact ⟨call, _, _, hcall, .free answer hpoint, (Option.some.inj h).symm⟩
    · cases h

/-- A section of another thread, a new call, or the next point of a call. -/
lemma step_cases {config : Config} {W : ℤ} {s s' : State Req Resp} {a : Action Req Resp}
    (h : step config W s a = some s') :
    (∃ b l, a = .limiter b ∧ RateLimiter.step W s.limiter b = some l ∧
      s' = { s with limiter := l }) ∨
    (∃ opts method req now, a = .unaryAsync opts method req now ∧
      s' = unaryAsync W opts method req now s) ∨
    ∃ id call point e, s.calls id = some call ∧ Follows config id call point e ∧
      s' = s.advance id call point e := by
  cases a with
  | limiter b =>
    obtain ⟨l, hl, hs⟩ := Option.map_eq_some_iff.mp h
    exact Or.inl ⟨b, l, rfl, hl, hs.symm⟩
  | unaryAsync opts method req now =>
    exact Or.inr (Or.inl ⟨opts, method, req, now, rfl, (Option.some.inj h).symm⟩)
  | proceed id => exact Or.inr (Or.inr ⟨id, proceed_cases h⟩)
  | complete id answer => exact Or.inr (Or.inr ⟨id, complete_cases h⟩)
  | delete id => exact Or.inr (Or.inr ⟨id, delete_cases h⟩)

/-! ## The life of a call -/

/-- What the trace holds of a call. -/
def script (config : Config) (id : ℕ) (call : Call Req Resp) : List (Event Req Resp) :=
  let started := Event.started id (setupContext config call.opts) call.req
  match call.point with
  | .asked admitted => [.asked id admitted]
  | .refused => [.asked id false, .callback id (.error limitExceeded)]
  | .inFlight => [.asked id true, started]
  | .delivered answer => [.asked id true, started, .callback id (completion answer)]
  | .freed answer => [.asked id true, started, .callback id (completion answer), .freed id]

/-- The events of a call. -/
def eventsOf (id : ℕ) (trace : List (Event Req Resp)) : List (Event Req Resp) :=
  trace.filter fun e => e.id == id

lemma eventsOf_concat_self {id : ℕ} {trace : List (Event Req Resp)} {e : Event Req Resp}
    (h : e.id = id) : eventsOf id (trace ++ [e]) = eventsOf id trace ++ [e] := by
  simp [eventsOf, h]

lemma eventsOf_concat_of_ne {id : ℕ} {trace : List (Event Req Resp)} {e : Event Req Resp}
    (h : e.id ≠ id) : eventsOf id (trace ++ [e]) = eventsOf id trace := by
  simp [eventsOf, h]

/-- A call that moves on adds one event to its script. -/
lemma Follows.script {config : Config} {id : ℕ} {call : Call Req Resp} {point : Point Resp}
    {e : Event Req Resp} (h : Follows config id call point e) :
    script config id { call with point := point } = script config id call ++ [e] := by
  cases h with
  | refuse h => simp [UnaryAsync.script, h]
  | start h => simp [UnaryAsync.script, h]
  | deliver answer h => simp [UnaryAsync.script, h]
  | free answer h => simp [UnaryAsync.script, h]

/-- The trace holds the scripts of the calls made so far. -/
structure Scripted (config : Config) (s : State Req Resp) : Prop where
  events : ∀ id, eventsOf id s.trace = (s.calls id).elim [] (script config id)
  fresh : ∀ id, s.nextCall ≤ id → s.calls id = none

lemma scripted_step {config : Config} {W : ℤ} {s s' : State Req Resp} {a : Action Req Resp}
    (h : Scripted config s) (hs : step config W s a = some s') : Scripted config s' := by
  rcases step_cases hs with ⟨b, l, -, -, rfl⟩ | ⟨opts, method, req, now, -, rfl⟩ |
    ⟨id, call, point, e, hcall, hf, rfl⟩
  · exact ⟨h.events, h.fresh⟩
  · -- the new call had no events
    refine ⟨fun id => ?_, fun id hid => ?_⟩
    · by_cases hid : id = s.nextCall
      · subst hid
        simp only [unaryAsync, Function.update_self]
        have hid : (Event.asked s.nextCall (tryAcquired W method now s.limiter) :
            Event Req Resp).id = s.nextCall := rfl
        rw [eventsOf_concat_self hid, h.events, h.fresh _ le_rfl]
        rfl
      · simp only [unaryAsync, Function.update_of_ne hid]
        rw [eventsOf_concat_of_ne fun he => hid he.symm]
        exact h.events id
    · simp only [unaryAsync] at hid ⊢
      rw [Function.update_of_ne (by omega)]
      exact h.fresh id (by omega)
  · refine ⟨fun i => ?_, fun i hi => ?_⟩
    · by_cases hid : i = id
      · subst hid
        simp only [State.advance, Function.update_self]
        rw [eventsOf_concat_self hf.id, h.events, hcall]
        exact hf.script.symm
      · simp only [State.advance, Function.update_of_ne hid]
        rw [eventsOf_concat_of_ne fun he => hid (he.symm.trans hf.id)]
        exact h.events i
    · have hne : i ≠ id := by
        rintro rfl
        rw [h.fresh _ hi] at hcall
        cases hcall
      simp only [State.advance, Function.update_of_ne hne]
      exact h.fresh i hi

lemma scripted_of_reachable {config : Config} {W : ℤ}
    {ok : State Req Resp → Action Req Resp → Prop} {s : State Req Resp}
    (h : Reachable (client config W) ok s) : Scripted config s :=
  h.invariant (I := Scripted config) ⟨fun _ => rfl, fun _ _ => rfl⟩
    fun _ _ _ _ hi _ hs => scripted_step hi hs

/-! ## Starts and the limit -/

/-- `try_acquire` returned true. -/
def Call.admitted (call : Call Req Resp) : Bool :=
  match call.point with
  | .asked admitted => admitted
  | .refused => false
  | _ => true

/-- The stub was invoked. -/
def Call.invoked (call : Call Req Resp) : Bool :=
  match call.point with
  | .asked _ => false
  | .refused => false
  | _ => true

lemma Call.admitted_of_invoked {call : Call Req Resp} (h : call.invoked = true) :
    call.admitted = true := by
  rw [Call.invoked] at h
  rw [Call.admitted]
  split at h <;> simp_all

lemma Follows.admitted {config : Config} {id : ℕ} {call : Call Req Resp} {point : Point Resp}
    {e : Event Req Resp} (h : Follows config id call point e) :
    Call.admitted { call with point := point } = call.admitted := by
  cases h with
  | refuse h => simp [Call.admitted, h]
  | start h => simp [Call.admitted, h]
  | deliver answer h => simp [Call.admitted, h]
  | free answer h => simp [Call.admitted, h]

/-- The clock reading of an admitted call of one of the methods `p`. -/
def Call.time? (p : String → Bool) (call : Call Req Resp) : Option ℤ :=
  if call.admitted && p call.method then some call.now else none

/-- The admitted calls of the methods `p`, in the order of `try_acquire`. -/
def admittedCalls (p : String → Bool) (s : State Req Resp) : List ℤ :=
  (List.range s.nextCall).filterMap fun id => (s.calls id).bind (Call.time? p)

/-- The calls of the methods `p` admitted in `[t, t + W)` whose stub was invoked. -/
def startsIn (W t : ℤ) (p : String → Bool) (s : State Req Resp) : ℕ :=
  (List.range s.nextCall).countP fun id => (s.calls id).any fun call =>
    call.invoked && p call.method && decide (t ≤ call.now ∧ call.now < t + W)

lemma startsIn_le (W t : ℤ) (p : String → Bool) (s : State Req Resp) :
    startsIn W t p s ≤ inInterval W t (admittedCalls p s) := by
  rw [startsIn, inInterval, admittedCalls, List.countP_filterMap]
  refine List.countP_mono_left fun id _ hid => ?_
  rw [Option.any_eq_true] at hid
  obtain ⟨call, hcall, hstart⟩ := hid
  simp only [Bool.and_eq_true, decide_eq_true_eq] at hstart
  obtain ⟨⟨hinv, hp⟩, htime⟩ := hstart
  simp [hcall, Call.time?, Call.admitted_of_invoked hinv, hp, htime]

/-- The limiter records an admission exactly when `try_acquire` returns true. -/
lemma admittedTimes_tryAcquire (W : ℤ) (p : String → Bool) (method : String) (now : ℤ)
    (s : RateLimiter.State) :
    RateLimiter.admittedTimes (fun m _ => p m) (RateLimiter.tryAcquire W method now s).trace
      = RateLimiter.admittedTimes (fun m _ => p m) s.trace
        ++ if tryAcquired W method now s && p method then [now] else [] := by
  rw [RateLimiter.tryAcquire, tryAcquired]
  rcases RateLimiter.check_cases W s method s.byMethod[method]? now with ⟨-, hcheck⟩ |
    ⟨g, hg, -, ⟨-, hcheck⟩ | ⟨-, -, hcheck⟩ | ⟨-, -, hcheck⟩⟩ <;>
    rw [hcheck, RateLimiter.admittedTimes_append] <;>
    cases hp : p method <;>
    simp [RateLimiter.admittedTimes, hp]

/-- The limiter only adds to its trace. -/
lemma limiter_trace {W : ℤ} {s s' : RateLimiter.State} {a : RateLimiter.Action}
    (h : RateLimiter.step W s a = some s') : s.trace <+: s'.trace := by
  rcases RateLimiter.step_cases h with ⟨-, -, htrace⟩ | ⟨m, group, now, w, -, -, rfl, -⟩
  · exact ⟨_, htrace.symm⟩
  · obtain ⟨es, -, htrace, -⟩ := RateLimiter.check_trace W s m group now
    exact ⟨es, htrace.symm⟩

/-- The calls admitted so far are among the admissions of the limiter. -/
lemma admittedCalls_step {config : Config} {W : ℤ} {s s' : State Req Resp} {a : Action Req Resp}
    {p : String → Bool}
    (h : (admittedCalls p s).Sublist
      (RateLimiter.admittedTimes (fun m _ => p m) s.limiter.trace))
    (hs : step config W s a = some s') :
    (admittedCalls p s').Sublist
      (RateLimiter.admittedTimes (fun m _ => p m) s'.limiter.trace) := by
  rcases step_cases hs with ⟨b, l, -, hl, rfl⟩ | ⟨opts, method, req, now, -, rfl⟩ |
    ⟨id, call, point, e, hcall, hf, rfl⟩
  · obtain ⟨es, hes⟩ := limiter_trace hl
    show (admittedCalls p s).Sublist (RateLimiter.admittedTimes (fun m _ => p m) l.trace)
    rw [← hes, RateLimiter.admittedTimes_append]
    exact h.trans (List.sublist_append_left _ _)
  · -- the new call is the last one, and its admission too
    have hold : (List.range s.nextCall).filterMap
        (fun id => ((unaryAsync W opts method req now s).calls id).bind (Call.time? p))
          = admittedCalls p s := by
      refine List.filterMap_congr fun id hid => ?_
      have hne : id ≠ s.nextCall := (List.mem_range.mp hid).ne
      simp only [unaryAsync, Function.update_of_ne hne]
    have hnew : [s.nextCall].filterMap
        (fun id => ((unaryAsync W opts method req now s).calls id).bind (Call.time? p))
          = if tryAcquired W method now s.limiter && p method then [now] else [] := by
      simp only [unaryAsync, List.filterMap_cons, Function.update_self, Option.bind_some,
        List.filterMap_nil]
      generalize tryAcquired W method now s.limiter = admitted
      cases admitted <;> cases hp : p method <;> simp [Call.time?, Call.admitted, hp]
    have hlist : admittedCalls p (unaryAsync W opts method req now s)
        = admittedCalls p s
          ++ if tryAcquired W method now s.limiter && p method then [now] else [] := by
      rw [← hold, ← hnew, ← List.filterMap_append, ← List.range_succ]
      rfl
    rw [hlist]
    simp only [unaryAsync]
    rw [admittedTimes_tryAcquire]
    exact h.append_right _
  · have hsame : admittedCalls p (s.advance id call point e) = admittedCalls p s := by
      refine List.filterMap_congr fun i _ => ?_
      by_cases hi : i = id
      · subst hi
        simp only [State.advance, Function.update_self, hcall, Option.bind_some, Call.time?,
          hf.admitted]
      · simp only [State.advance, Function.update_of_ne hi]
    rw [hsame]
    exact h

/-- The section of the limiter in an action. -/
def Action.section? : Action Req Resp → Option RateLimiter.Action
  | .limiter a => some a
  | .unaryAsync _ method _ now => some (.tryAcquire method now)
  | _ => none

/-- An assumption on the sections of the limiter. -/
def OnLimiter (ok : RateLimiter.State → RateLimiter.Action → Prop) (s : State Req Resp)
    (a : Action Req Resp) : Prop :=
  ∀ b ∈ a.section?, ok s.limiter b

instance (ok : RateLimiter.State → RateLimiter.Action → Prop) [∀ s a, Decidable (ok s a)]
    (s : State Req Resp) (a : Action Req Resp) : Decidable (OnLimiter ok s a) :=
  inferInstanceAs (Decidable (∀ b ∈ a.section?, ok s.limiter b))

/-- The limiter of a client runs as a limiter does. -/
lemma limiter_of_reachable {config : Config} {W : ℤ}
    {ok : RateLimiter.State → RateLimiter.Action → Prop} {s : State Req Resp}
    (h : Reachable (client config W) (OnLimiter ok) s) :
    Reachable (RateLimiter.limiter W) ok s.limiter := by
  refine h.invariant (I := fun s => Reachable (RateLimiter.limiter W) ok s.limiter) .init ?_
  intro s a s' _ hi hok hs
  rcases step_cases hs with ⟨b, l, rfl, hl, rfl⟩ | ⟨opts, method, req, now, rfl, rfl⟩ |
    ⟨id, call, point, e, -, -, rfl⟩
  · exact .step b hi (hok b rfl) hl
  · exact .step (.tryAcquire method now) hi (hok _ rfl) rfl
  · exact hi

lemma admittedCalls_of_reachable {config : Config} {W : ℤ}
    {ok : State Req Resp → Action Req Resp → Prop} {s : State Req Resp}
    (h : Reachable (client config W) ok s) (p : String → Bool) :
    (admittedCalls p s).Sublist
      (RateLimiter.admittedTimes (fun m _ => p m) s.limiter.trace) := by
  refine h.invariant
    (I := fun s => (admittedCalls p s).Sublist
      (RateLimiter.admittedTimes (fun m _ => p m) s.limiter.trace)) (List.Sublist.refl _) ?_
  intro s a s' _ hi _ hs
  exact admittedCalls_step hi hs

end

/-! ## Results -/

/-- **A call is answered once.** In every run, whatever the limiter, the other threads and the
server do, the trace holds of a call exactly its script. That gRPC completes a started call at most
once is its promise, and the guard of `complete`. -/
theorem calls_follow_script {Req Resp : Type} {config : Config} {W : ℤ}
    {ok : State Req Resp → Action Req Resp → Prop} {s : State Req Resp}
    (h : Reachable (client config W) ok s) (id : ℕ) :
    eventsOf id s.trace = (s.calls id).elim [] (script config id) :=
  (scripted_of_reachable h).events id

/-- With a limit of one: a call that is answered, and one that is turned away. -/
theorem calls_follow_script_two :
    ∃ s, Reachable (client ⟨"t", "app", none, {}⟩ 60) (OnLimiter (RateLimiter.Settled 60)) s ∧
      eventsOf 0 s.trace = [.asked 0 true,
        .started 0 ⟨[("authorization", "Bearer t"), ("x-app-name", "app")], none⟩ "first",
        .callback 0 (.ok "answer"), .freed 0] ∧
      eventsOf 1 s.trace = [.asked 1 false, .callback 1 (.error limitExceeded)] := by
  obtain ⟨s, hs, hp⟩ := exists_reachable_of_run (client ⟨"t", "app", none, {}⟩ 60)
    (OnLimiter (RateLimiter.Settled 60))
    (fun s => decide ((s.calls 0).elim [] (script ⟨"t", "app", none, {}⟩ 0) = [.asked 0 true,
        .started 0 ⟨[("authorization", "Bearer t"), ("x-app-name", "app")], none⟩ "first",
        .callback 0 (.ok "answer"), .freed 0] ∧
      (s.calls 1).elim [] (script ⟨"t", "app", none, {}⟩ 1)
        = [.asked 1 false, .callback 1 (.error limitExceeded)]))
    [.limiter (.setLimit ["/m"] 1), .unaryAsync {} "m" "first" 100,
      .unaryAsync {} "m" "second" 101, .proceed 1, .proceed 0,
      .complete 0 { status := {}, trailing := [], resp := "answer" }, .delete 0]
    (by decide +kernel)
  simp only [decide_eq_true_eq] at hp
  refine ⟨s, hs, ?_, ?_⟩
  · rw [calls_follow_script hs 0, hp.1]
  · rw [calls_follow_script hs 1, hp.2]

/-- **Asynchronous calls stay within the limit.** When the limiter is set up first, its clock does
not go back and its readings are a window or more past the epoch, then in every half-open interval
of the length of the window at most `2 L - 1` of the admitted calls of a group with limit `L` invoke
their stub, whatever the blocking calls of other threads do. -/
theorem starts_bounded {Req Resp : Type} {config : Config} {W : ℤ} {s : State Req Resp}
    (h : Reachable (client config W) (OnLimiter (RateLimiter.Settled W)) s) (g : ℕ)
    (hpos : 0 < (s.limiter.groups g).limit) (t : ℤ) :
    (startsIn W t (fun m => s.limiter.byMethod[m]? == some g) s : ℤ)
      ≤ 2 * (s.limiter.groups g).limit - 1 := by
  have hlimiter := limiter_of_reachable h
  have hsteady := RateLimiter.steady_of_reachable hlimiter
  have htimed := RateLimiter.timed_of_reachable (fun _ _ hok => hok.1) hlimiter g
  have hlimit := RateLimiter.Group.counter_limit hpos
  have hpos' : 0 < (s.limiter.groups g).counter.limit := by omega
  have hinterval := htimed.interval_le hpos' t
  rw [← hsteady.admittedTimes_ofGroup hpos fun e he => he] at hinterval
  -- starts, then admitted calls, then admissions of the limiter
  have hstarts := startsIn_le W t (fun m => s.limiter.byMethod[m]? == some g) s
  have hcalls := (admittedCalls_of_reachable h
    (fun m => s.limiter.byMethod[m]? == some g)).countP_le
    (p := fun a => decide (t ≤ a ∧ a < t + W))
  have hle : startsIn W t (fun m => s.limiter.byMethod[m]? == some g) s
      ≤ inInterval W t (RateLimiter.admittedTimes (RateLimiter.ofGroup s.limiter g)
        s.limiter.trace) := hstarts.trans hcalls
  omega

/-- With a limit of one, the two calls of an interval invoke one stub. -/
theorem starts_bounded_one :
    ∃ s : State String String,
      Reachable (client ⟨"t", "app", none, {}⟩ 60) (OnLimiter (RateLimiter.Settled 60)) s ∧
      s.nextCall = 2 ∧ startsIn 60 100 (fun m => s.limiter.byMethod[m]? == some 0) s ≤ 1 := by
  obtain ⟨s, hs, hp⟩ := exists_reachable_of_run (client ⟨"t", "app", none, {}⟩ 60)
    (OnLimiter (RateLimiter.Settled 60))
    (fun s : State String String => decide (s.nextCall = 2 ∧ (s.limiter.groups 0).limit = 1))
    [.limiter (.setLimit ["/m"] 1), .unaryAsync {} "m" "first" 100,
      .unaryAsync {} "m" "second" 101, .proceed 1, .proceed 0]
    (by decide +kernel)
  simp only [decide_eq_true_eq] at hp
  have hbound := starts_bounded hs 0 (by rw [hp.2]; norm_num) 100
  rw [hp.2] at hbound
  exact ⟨s, hs, hp.1, by omega⟩

end UnaryAsync
end TInvest
