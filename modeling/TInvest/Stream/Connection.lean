import TInvest.Stream.MarketDataStreamSteps

/-!
# The connection of the market-data stream

The joint invariant of the flags, the pointers, the reactors and the trace, while `start()`
is not called beside a `stop()` in progress.

* `Stage` — how far the current connection has come, read off the worker that runs;
* `Conn` — what holds at a stage; `Conn.frame`, `Conn.releaseLocked`, `Conn.maybeWriteLocked`
  are its rules;
* `conn_of_reachable` — it holds in every reachable state.
-/

namespace TInvest
namespace MarketDataStream

open Pb
open Lib.Transition

/-! ## Events of a connection -/

namespace Event

/-- The connection an event is about. -/
def conn? : Event → Option ℕ
  | session _ | sent _ _ => none
  | filled c _ | published c | tryCancel c | startCall c | startWrite c _ | holdReleased c
  | removeHold c | done c => some c

/-- Events the reactor protocol says nothing about. -/
def Neutral : Event → Prop
  | startWrite _ _ | holdReleased _ | removeHold _ | done _ => False
  | _ => True

/-- The reactor protocol: `StartWrite` comes after `StartCall` and before the hold is
released; `RemoveHold` comes once, and before `OnDone`. -/
def Allowed (pre : List Event) : Event → Prop
  | startWrite c _ => startCall c ∈ pre ∧ holdReleased c ∉ pre
  | removeHold c => removeHold c ∉ pre ∧ done c ∉ pre
  | _ => True

lemma Neutral.allowed {e : Event} (h : e.Neutral) (pre : List Event) : e.Allowed pre := by
  cases e <;> trivial

end Event

/-- A neutral piece of trace adds none of the events the protocol is about. -/
lemma notMem_append_neutral {l es : List Event} {e : Event} (he : ¬ e.Neutral)
    (hes : ∀ x ∈ es, x.Neutral) (h : e ∉ l) : e ∉ l ++ es := by
  intro hmem
  rcases List.mem_append.mp hmem with hmem | hmem
  · exact h hmem
  · exact he (hes e hmem)

lemma guarded_append_neutral {l es : List Event} (hes : ∀ x ∈ es, x.Neutral)
    (h : Guarded (fun pre e => e.Allowed pre) l) :
    Guarded (fun pre e => e.Allowed pre) (l ++ es) := by
  rw [guarded_append]
  refine ⟨h, ?_⟩
  intro pre e post hsplit
  -- a neutral event is allowed after any trace
  have hneutral : e.Neutral := hes e (by rw [hsplit]; simp)
  exact hneutral.allowed _

/-! ## Stages -/

/-- How far the current connection has come. -/
inductive Stage where
  | none
  /-- the queue is filled and the context is known -/
  | bound (c : ℕ)
  /-- the call is started, and the reactor not yet published -/
  | started (c : ℕ)
  | published (c : ℕ)
  /-- `OnDone` was delivered -/
  | finished (c : ℕ)

namespace Stage

def ctx : Stage → Option ℕ
  | none => .none
  | bound c | started c | published c | finished c => some c

def reactor : Stage → Option ℕ
  | published c => some c
  | _ => .none

/-- The reactor that may still get callbacks. -/
def active : Stage → Option ℕ
  | started c | published c => some c
  | _ => .none

/-- The stages at which a worker may be at a point of `run()`. -/
def AtPc (g : Stage) : Pc Once → Prop
  | .once (.startCall c) => g = bound c
  | .once (.publish c) => g = started c
  | .once (.waiting c) => g = published c ∨ g = finished c
  | _ => g = none

end Stage

/-- The operations of a reactor without its read side. -/
def Reactor.ops (r : Reactor) : Reactor := { r with reading := .idle }

/-- The hold of a published reactor: kept, decided to be removed by one thread, or removed. -/
inductive Hold (s : State) (c : ℕ) : Prop
  | kept (hflag : s.holdReleased = false) (hpending : s.releases = [])
    (hholds : (s.reactors c).holds = 1) (hunset : .holdReleased c ∉ s.trace)
    (hunremoved : .removeHold c ∉ s.trace)
  | decided (caller : Caller) (hflag : s.holdReleased = true)
    (hpending : s.releases = [(caller, c)]) (hholds : (s.reactors c).holds = 1)
    (hunremoved : .removeHold c ∉ s.trace)
  | removed (hflag : s.holdReleased = true) (hpending : s.releases = [])
    (hholds : (s.reactors c).holds = 0) (hremoved : .removeHold c ∈ s.trace)

/-- What each stage says of its own connection. -/
def Stage.Own (s : State) : Stage → Prop
  | .none => s.releases = []
  | .bound c =>
    s.releases = [] ∧ s.done = false ∧ s.holdReleased = false ∧ s.writeInFlight = false ∧
      (s.reactors c).ops = {} ∧ .holdReleased c ∉ s.trace ∧ .removeHold c ∉ s.trace ∧
      .done c ∉ s.trace
  | .started c =>
    Hold s c ∧ s.done = false ∧ s.holdReleased = false ∧ s.writeInFlight = false ∧
      .startCall c ∈ s.trace ∧ .done c ∉ s.trace
  | .published c =>
    Hold s c ∧ s.done = false ∧ .startCall c ∈ s.trace ∧ .done c ∉ s.trace
  | .finished _ => s.releases = [] ∧ s.done = true

/-- The connection invariant at a stage. -/
structure Conn (s : State) (g : Stage) : Prop where
  ctx : s.ctx = g.ctx
  reactor : s.reactor = g.reactor
  active : ∀ c, s.Active c ↔ g.active = some c
  known : ∀ c, g.ctx = some c → c < s.nextConn
  /-- a stopped connection was cancelled -/
  cancelled : ∀ c, g.ctx = some c → s.stopping = true → .tryCancel c ∈ s.trace
  writes : ∀ c, (s.reactors c).writes ≤ 1
  flight : ∀ c, g.active = some c → s.writeInFlight = false → (s.reactors c).writes = 0
  own : g.Own s
  /-- the next connection is not known to anyone -/
  fresh : ∀ c, s.nextConn ≤ c → (s.reactors c).ops = {} ∧ ∀ e ∈ s.trace, e.conn? ≠ some c
  guarded : Guarded (fun pre e => e.Allowed pre) s.trace

/-- The hold of a published reactor is given up once the stream is broken or stopping. -/
def Released (s : State) : Prop :=
  ∀ c, s.reactor = some c → s.broken = true ∨ s.stopping = true → s.holdReleased = true

/-! ## Rules -/

variable {cfg : Config} {s s' : State} {a : Action} {g : Stage} {c w w' : ℕ} {pc pc' : Pc Once}

/-- `s'` differs from `s` only in what the connection invariant does not look at: the read
sides, the queue, the registry, the threads, `broken_`, and neutral events. -/
structure Frame (s s' : State) : Prop where
  ctx : s'.ctx = s.ctx := by rfl
  reactor : s'.reactor = s.reactor := by rfl
  done : s'.done = s.done := by rfl
  holdReleased : s'.holdReleased = s.holdReleased := by rfl
  writeInFlight : s'.writeInFlight = s.writeInFlight := by rfl
  releases : s'.releases = s.releases := by rfl
  nextConn : s'.nextConn = s.nextConn := by rfl
  ops : ∀ c, (s'.reactors c).ops = (s.reactors c).ops := by intro _; rfl
  stopping : ∀ c, s.ctx = some c → s'.stopping = true →
    s.stopping = true ∨ .tryCancel c ∈ s'.trace := by exact fun _ _ h => Or.inl h
  trace : ∃ es, s'.trace = s.trace ++ es ∧
    ∀ e ∈ es, e.Neutral ∧ ∀ c, e.conn? = some c → c < s.nextConn

/-- The frame of a step that changes neither the flags nor the reactors. -/
lemma Frame.of_eq
    (h : (s'.ctx, s'.reactor, s'.done, s'.holdReleased, s'.writeInFlight, s'.releases, s'.nextConn,
        s'.stopping, s'.reactors) =
      (s.ctx, s.reactor, s.done, s.holdReleased, s.writeInFlight, s.releases, s.nextConn,
        s.stopping, s.reactors))
    (htrace : ∃ es, s'.trace = s.trace ++ es ∧
      ∀ e ∈ es, e.Neutral ∧ ∀ c, e.conn? = some c → c < s.nextConn) : Frame s s' := by
  simp only [Prod.mk.injEq] at h
  obtain ⟨hctx, hreactor, hdone, hheld, hflight, hreleases, hnext, hstopping, hreactors⟩ := h
  refine ⟨hctx, hreactor, hdone, hheld, hflight, hreleases, hnext, ?_, ?_, htrace⟩
  · intro c
    rw [hreactors]
  · intro c _ hstop
    rw [← hstopping]
    exact Or.inl hstop

lemma ops_eq_iff {r r' : Reactor} : r.ops = r'.ops ↔
    r.started = r'.started ∧ r.holds = r'.holds ∧ r.writes = r'.writes ∧
      r.finished = r'.finished := by
  cases r
  cases r'
  simp [Reactor.ops]

lemma Hold.frame (h : Hold s c) (hf : Frame s s') : Hold s' c := by
  obtain ⟨es, htrace, hes⟩ := hf.trace
  have hneutral : ∀ x ∈ es, x.Neutral := fun x hx => (hes x hx).1
  have hholds : (s'.reactors c).holds = (s.reactors c).holds := (ops_eq_iff.mp (hf.ops c)).2.1
  cases h with
  | kept hflag hpending hh hunset hunremoved =>
    refine .kept (hf.holdReleased.trans hflag) (hf.releases.trans hpending) (hholds.trans hh)
      ?_ ?_
    · rw [htrace]
      exact notMem_append_neutral (by simp [Event.Neutral]) hneutral hunset
    · rw [htrace]
      exact notMem_append_neutral (by simp [Event.Neutral]) hneutral hunremoved
  | decided caller hflag hpending hh hunremoved =>
    refine .decided caller (hf.holdReleased.trans hflag) (hf.releases.trans hpending)
      (hholds.trans hh) ?_
    rw [htrace]
    exact notMem_append_neutral (by simp [Event.Neutral]) hneutral hunremoved
  | removed hflag hpending hh hremoved =>
    refine .removed (hf.holdReleased.trans hflag) (hf.releases.trans hpending)
      (hholds.trans hh) ?_
    rw [htrace]
    exact List.mem_append_left _ hremoved

/-- Until the flag is set the hold is kept. -/
lemma Hold.of_unset (h : Hold s c) (hflag : s.holdReleased = false) :
    s.releases = [] ∧ (s.reactors c).holds = 1 ∧ .holdReleased c ∉ s.trace ∧
      .removeHold c ∉ s.trace := by
  cases h with
  | kept _ hpending hholds hunset hunremoved => exact ⟨hpending, hholds, hunset, hunremoved⟩
  | decided _ hset => exact absurd (hflag.symm.trans hset) (by simp)
  | removed hset => exact absurd (hflag.symm.trans hset) (by simp)

lemma own_frame (h : g.Own s) (hf : Frame s s') : g.Own s' := by
  obtain ⟨es, htrace, hes⟩ := hf.trace
  have hneutral : ∀ x ∈ es, x.Neutral := fun x hx => (hes x hx).1
  -- the new events are neutral: what the stage forbids is still absent
  have hkeep : ∀ {e : Event}, ¬ e.Neutral → e ∉ s.trace → e ∉ s'.trace := by
    intro e he hmem
    rw [htrace]
    exact notMem_append_neutral he hneutral hmem
  -- and what it requires is still there
  have hmono : ∀ {e : Event}, e ∈ s.trace → e ∈ s'.trace := by
    intro e hmem
    rw [htrace]
    exact List.mem_append_left _ hmem
  cases g with
  | none => exact hf.releases.trans h
  | bound c =>
    obtain ⟨hrel, hdone, hflag, hflight, hops, hunset, hunremoved, hundone⟩ := h
    exact ⟨hf.releases.trans hrel, hf.done.trans hdone, hf.holdReleased.trans hflag,
      hf.writeInFlight.trans hflight, (hf.ops c).trans hops,
      hkeep (by simp [Event.Neutral]) hunset, hkeep (by simp [Event.Neutral]) hunremoved,
      hkeep (by simp [Event.Neutral]) hundone⟩
  | started c =>
    obtain ⟨hhold, hdone, hflag, hflight, hcall, hundone⟩ := h
    exact ⟨hhold.frame hf, hf.done.trans hdone, hf.holdReleased.trans hflag,
      hf.writeInFlight.trans hflight, hmono hcall, hkeep (by simp [Event.Neutral]) hundone⟩
  | published c =>
    obtain ⟨hhold, hdone, hcall, hundone⟩ := h
    exact ⟨hhold.frame hf, hf.done.trans hdone, hmono hcall,
      hkeep (by simp [Event.Neutral]) hundone⟩
  | finished c => exact ⟨hf.releases.trans h.1, hf.done.trans h.2⟩

lemma active_frame (hf : Frame s s') (c : ℕ) : s'.Active c ↔ s.Active c := by
  obtain ⟨hstarted, -, -, hfinished⟩ := ops_eq_iff.mp (hf.ops c)
  unfold State.Active
  rw [hstarted, hfinished]

/-- **Frame rule.** -/
lemma Conn.frame (h : Conn s g) (hf : Frame s s') : Conn s' g := by
  obtain ⟨es, htrace, hes⟩ := hf.trace
  refine ⟨hf.ctx.trans h.ctx, hf.reactor.trans h.reactor, ?_, ?_, ?_, ?_, ?_, own_frame h.own hf,
    ?_, ?_⟩
  · intro c
    rw [active_frame hf, h.active]
  · intro c hc
    rw [hf.nextConn]
    exact h.known c hc
  · intro c hc hstop
    rcases hf.stopping c (h.ctx.trans hc) hstop with hstop | hcancel
    · rw [htrace]
      exact List.mem_append_left _ (h.cancelled c hc hstop)
    · exact hcancel
  · intro c
    rw [(ops_eq_iff.mp (hf.ops c)).2.2.1]
    exact h.writes c
  · intro c hc hflight
    rw [(ops_eq_iff.mp (hf.ops c)).2.2.1]
    exact h.flight c hc (hf.writeInFlight ▸ hflight)
  · intro c hc
    rw [hf.nextConn] at hc
    refine ⟨(hf.ops c).trans (h.fresh c hc).1, ?_⟩
    intro e he hconn
    rw [htrace] at he
    rcases List.mem_append.mp he with he | he
    · exact (h.fresh c hc).2 e he hconn
    · exact absurd ((hes e he).2 c hconn) (by omega)
  · rw [htrace]
    exact guarded_append_neutral (fun x hx => (hes x hx).1) h.guarded

lemma Conn.eq_published (h : Conn s g) (hr : s.reactor = some c) : g = .published c := by
  rw [h.reactor] at hr
  cases g <;> simp_all [Stage.reactor]

/-- An event about a known connection keeps the next one unknown. -/
lemma fresh_concat {trace : List Event} {n : ℕ} {e : Event}
    (h : ∀ e ∈ trace, e.conn? ≠ some n) (he : e.conn? = some c) (hc : c < n) :
    ∀ e' ∈ trace ++ [e], e'.conn? ≠ some n := by
  intro e' hmem hconn
  rcases List.mem_append.mp hmem with hmem | hmem
  · exact h e' hmem hconn
  · rw [List.mem_singleton.mp hmem, he] at hconn
    exact hc.ne (Option.some.inj hconn)

/-- Releasing the hold. -/
lemma Conn.releaseLocked (h : Conn s g) (caller : Caller) : Conn (s.releaseLocked caller) g := by
  rcases releaseLocked_cases s caller with ⟨-, heq⟩ | ⟨c, hr, hflag, heq⟩
  · rwa [heq]
  · obtain rfl := h.eq_published hr
    obtain ⟨hhold, hdone, hcall, hundone⟩ := h.own
    obtain ⟨hpending, hholds, -, hunremoved⟩ := hhold.of_unset hflag
    have hknown : c < s.nextConn := h.known c rfl
    rw [heq]
    refine ⟨h.ctx, h.reactor, h.active, h.known, ?_, h.writes, h.flight, ?_, ?_, ?_⟩
    · intro c' hc' hstop
      exact List.mem_append_left _ (h.cancelled c' hc' hstop)
    · refine ⟨?_, hdone, List.mem_append_left _ hcall, by simpa using hundone⟩
      exact .decided caller rfl (by simp [hpending]) hholds (by simpa using hunremoved)
    · intro c' hc'
      exact ⟨(h.fresh c' hc').1, fresh_concat (h.fresh c' hc').2 rfl (hknown.trans_le hc')⟩
    · rw [guarded_concat]
      exact ⟨h.guarded, trivial⟩

/-- After it the hold of a published reactor is given up. -/
lemma holdReleased_releaseLocked (s : State) (caller : Caller)
    (hc : (s.releaseLocked caller).reactor = some c) :
    (s.releaseLocked caller).holdReleased = true := by
  rcases releaseLocked_cases s caller with ⟨hwhy, heq⟩ | ⟨c', hr, hflag, heq⟩
  · rw [heq] at hc ⊢
    rcases hwhy with hnone | hset
    · exact absurd (hnone.symm.trans hc) (by simp)
    · exact hset
  · rw [heq]

/-- Changing the operations of one reactor but not its life. -/
lemma active_update {r : Reactor} (hr : s'.reactors = Function.update s.reactors c r)
    (hs : r.started = (s.reactors c).started) (hf : r.finished = (s.reactors c).finished)
    (c' : ℕ) : s'.Active c' ↔ s.Active c' := by
  unfold State.Active
  rw [hr]
  by_cases hc : c' = c
  · rw [hc, Function.update_self, hs, hf]
  · rw [Function.update_of_ne hc]

/-- A change to a known reactor keeps the unknown ones. -/
lemma ops_update {r : Reactor} {n : ℕ} (hr : s'.reactors = Function.update s.reactors c r)
    (hc : c < n) (h : (s.reactors n).ops = {}) : (s'.reactors n).ops = {} := by
  rw [hr, Function.update_of_ne hc.ne']
  exact h

/-- A change to a known reactor with an event about it leaves the unknown connections unknown. -/
lemma Conn.fresh_step {r : Reactor} {e : Event} (h : Conn s g) (hc : c < s.nextConn)
    (hr : s'.reactors = Function.update s.reactors c r) (he : e.conn? = some c) :
    ∀ n, s.nextConn ≤ n →
      (s'.reactors n).ops = {} ∧ ∀ e' ∈ s.trace ++ [e], e'.conn? ≠ some n := by
  intro n hn
  obtain ⟨hops, htrace⟩ := h.fresh n hn
  exact ⟨ops_update hr (hc.trans_le hn) hops, fresh_concat htrace he (hc.trans_le hn)⟩

/-- A change to one reactor leaves the writes of the others. -/
lemma Conn.writes_update {r : Reactor} (h : Conn s g)
    (hr : s'.reactors = Function.update s.reactors c r) (hw : r.writes ≤ 1) :
    ∀ n, (s'.reactors n).writes ≤ 1 := by
  intro n
  rw [hr]
  by_cases hn : n = c
  · rwa [hn, Function.update_self]
  · rw [Function.update_of_ne hn]
    exact h.writes n

/-- Starting the next write. -/
lemma Conn.maybeWriteLocked (h : Conn s g) : Conn s.maybeWriteLocked g := by
  rcases maybeWriteLocked_cases s with ⟨-, heq⟩ | ⟨c, next, rest, hlive, hflight, -, heq⟩
  · rwa [heq]
  · obtain rfl := h.eq_published hlive.1
    obtain ⟨hhold, hdone, hcall, hundone⟩ := h.own
    have hknown : c < s.nextConn := h.known c rfl
    obtain ⟨hpending, hholds, hunset, hunremoved⟩ := hhold.of_unset hlive.2.2
    -- `write_in_flight_` is unset, so this is the only write
    have hwrites : (s.reactors c).writes = 0 := h.flight c rfl hflight
    rw [heq]
    refine ⟨h.ctx, h.reactor, ?_, h.known, ?_, ?_, ?_, ?_, ?_, ?_⟩
    · intro c'
      rw [← h.active c']
      exact active_update (s := s) (c := c) rfl (by rfl) (by rfl) c'
    · intro c' hc' hstop
      exact List.mem_append_left _ (h.cancelled c' hc' hstop)
    · exact h.writes_update rfl (by simp [hwrites])
    · intro c' _ hfalse
      exact absurd hfalse (by simp)
    · refine ⟨?_, hdone, List.mem_append_left _ hcall, by simpa using hundone⟩
      exact .kept hlive.2.2 hpending (by simpa using hholds) (by simpa using hunset)
        (by simpa using hunremoved)
    · exact h.fresh_step hknown rfl rfl
    · rw [guarded_concat]
      exact ⟨h.guarded, hcall, hunset⟩

/-! ## Moves that leave the connection alone -/

/-- Events that are about no connection. -/
lemma frame_session (es : List (SessionEvent Call)) (n : ℕ) :
    ∀ e ∈ es.map Event.session, e.Neutral ∧ ∀ c, e.conn? = some c → c < n := by
  intro e he
  obtain ⟨e', -, rfl⟩ := List.mem_map.mp he
  exact ⟨trivial, by simp [Event.conn?]⟩

/-- A change of the read side. -/
lemma frame_reading (s : State) (c : ℕ) (reading : Reading) :
    Frame s (s.setReactor c { s.reactors c with reading := reading }) where
  ops c' := by
    by_cases hc : c' = c
    · simp [State.setReactor, hc, Reactor.ops]
    · simp [State.setReactor, Function.update_of_ne hc]
  trace := ⟨[], by simp [State.setReactor], by simp⟩

lemma Frame.trans {s s' s'' : State} (h : Frame s s') (h' : Frame s' s'') : Frame s s'' := by
  obtain ⟨es, htrace, hes⟩ := h.trace
  obtain ⟨es', htrace', hes'⟩ := h'.trace
  refine ⟨h'.ctx.trans h.ctx, h'.reactor.trans h.reactor, h'.done.trans h.done,
    h'.holdReleased.trans h.holdReleased, h'.writeInFlight.trans h.writeInFlight,
    h'.releases.trans h.releases, h'.nextConn.trans h.nextConn,
    fun c => (h'.ops c).trans (h.ops c), ?_, es ++ es', ?_, ?_⟩
  · intro c hc hstop
    rcases h'.stopping c (h.ctx.trans hc) hstop with hstop | hcancel
    · rcases h.stopping c hc hstop with hstop | hcancel
      · exact Or.inl hstop
      · right
        rw [htrace']
        exact List.mem_append_left _ hcancel
    · exact Or.inr hcancel
  · rw [htrace', htrace, List.append_assoc]
  · intro e he
    rcases List.mem_append.mp he with he | he
    · exact hes e he
    · exact h.nextConn ▸ hes' e he

lemma frame_emit_session (s : State) (e : SessionEvent Call) : Frame s (s.emit (.session e)) :=
  .of_eq rfl ⟨[.session e], rfl, frame_session [e] _⟩

lemma frame_setPc (s : State) (w : ℕ) (pc : Pc Once) : Frame s (s.setPc w pc) :=
  .of_eq rfl ⟨[], by simp [State.setPc], by simp⟩

/-! ## Moves of the connection -/

lemma Conn.stop (h : Conn s g) (t : ℕ) : Conn (s.stop t) g := by
  have hrel := h.releaseLocked (.stop t)
  have hctx : (s.releaseLocked (.stop t)).ctx = s.ctx := hrel.ctx.trans h.ctx.symm
  apply hrel.frame
  rw [stop_eq]
  refine { stopping := ?_, trace := ⟨_, rfl, ?_⟩ }
  · -- a known context is cancelled in the same critical section
    intro c hc _
    right
    rw [hctx] at hc
    simp [hc]
  · intro e he
    rw [Option.mem_toList, Option.map_eq_some_iff] at he
    obtain ⟨c, hc, rfl⟩ := he
    refine ⟨trivial, ?_⟩
    intro c' hc'
    obtain rfl : c = c' := Option.some.inj hc'
    exact hrel.known c (hrel.ctx.symm.trans (hctx.trans hc))

lemma released_stop (s : State) (t : ℕ) : Released (s.stop t) := by
  intro c hc _
  rw [stop_eq] at hc ⊢
  exact holdReleased_releaseLocked s (.stop t) hc

lemma released_maybeWriteLocked (h : Released s) : Released s.maybeWriteLocked := by
  rcases maybeWriteLocked_cases s with ⟨-, heq⟩ | ⟨c, next, rest, -, -, -, heq⟩ <;> rwa [heq]

lemma Conn.send (h : Conn s g) (o : Outgoing) : Conn (s.send o) g := by
  rcases send_cases s o with ⟨-, heq⟩ | ⟨-, -, heq⟩ | ⟨c, -, -, heq⟩
  · rw [heq]
    exact h.frame (.of_eq rfl ⟨[_], rfl, by simp [Event.Neutral, Event.conn?]⟩)
  · rw [heq]
    exact h.frame (.of_eq rfl ⟨[_], rfl, by simp [Event.Neutral, Event.conn?]⟩)
  · rw [heq]
    apply Conn.maybeWriteLocked
    exact h.frame (.of_eq rfl ⟨[_], rfl, by simp [Event.Neutral, Event.conn?]⟩)

lemma released_send (h : Released s) (o : Outgoing) : Released (s.send o) := by
  rcases send_cases s o with ⟨-, heq⟩ | ⟨-, -, heq⟩ | ⟨c, -, -, heq⟩
  · rwa [heq]
  · rwa [heq]
  · rw [heq]
    exact released_maybeWriteLocked h

/-- The registry is snapshotted and a new connection is bound. -/
lemma Conn.fill (h : Conn s .none) (hrun : s.stopping = false) :
    Conn (s.fill w) (.bound s.nextConn) := by
  -- the trace does not know the new connection, and filling its queue is neutral
  have hunseen := (h.fresh s.nextConn le_rfl).2
  have hnotMem : ∀ e : Event, e.conn? = some s.nextConn → ¬ e.Neutral →
      e ∉ s.trace ++ [.filled s.nextConn (replay s.subscriptions)] := by
    intro e hconn hneutral hmem
    rcases List.mem_append.mp hmem with hmem | hmem
    · exact hunseen e hmem hconn
    · rw [List.mem_singleton.mp hmem] at hneutral
      exact hneutral trivial
  unfold State.fill
  rw [if_neg (by simp [hrun])]
  refine ⟨rfl, h.reactor, h.active, ?_, ?_, h.writes, ?_, ?_, ?_, ?_⟩
  · intro c hc
    obtain rfl : s.nextConn = c := Option.some.inj hc
    exact Nat.lt_succ_self _
  · intro c _ hstop
    exact absurd (hrun.symm.trans hstop) (by simp)
  · intro c hc
    exact absurd hc (by simp [Stage.active])
  · exact ⟨h.own, rfl, rfl, rfl, (h.fresh s.nextConn le_rfl).1,
      hnotMem _ rfl (by simp [Event.Neutral]), hnotMem _ rfl (by simp [Event.Neutral]),
      hnotMem _ rfl (by simp [Event.Neutral])⟩
  · intro c hc
    have hlt : s.nextConn < c := hc
    exact ⟨(h.fresh c hlt.le).1, fresh_concat (h.fresh c hlt.le).2 rfl hlt⟩
  · show Guarded _ (s.trace ++ [_])
    rw [guarded_concat]
    exact ⟨h.guarded, trivial⟩

/-- The call is started. -/
lemma Conn.startCall (h : Conn s (.bound c)) : Conn (s.startCall w c) (.started c) := by
  obtain ⟨hrel, hdone, hflag, hflight, hops, hunset, hunremoved, hundone⟩ := h.own
  have hfresh : (s.reactors c).ops = Reactor.ops {} := hops
  obtain ⟨-, -, hwrites, hfinished⟩ := ops_eq_iff.mp hfresh
  have hknown : c < s.nextConn := h.known c rfl
  refine ⟨h.ctx, h.reactor, ?_, h.known, ?_, ?_, ?_, ?_, ?_, ?_⟩
  · intro c'
    by_cases hc' : c' = c
    · subst hc'
      simp [State.Active, State.startCall, State.emit, State.setPc, State.setReactor, Stage.active,
        hfinished]
    · have hold := h.active c'
      simp only [State.Active, Stage.active] at hold
      simp [State.Active, State.startCall, State.emit, State.setPc, State.setReactor, Stage.active,
        Function.update_of_ne hc', hold, Ne.symm hc']
  · intro c' hc' hstop
    exact List.mem_append_left _ (h.cancelled c' hc' hstop)
  · exact h.writes_update rfl (by simp [hwrites])
  · intro c' hc' _
    obtain rfl : c = c' := Option.some.inj hc'
    simpa [State.startCall, State.emit, State.setPc, State.setReactor] using hwrites
  · refine ⟨.kept hflag hrel ?_ ?_ ?_, hdone, hflag, hflight, ?_, ?_⟩
    · simp [State.startCall, State.emit, State.setPc, State.setReactor]
    · simpa [State.startCall, State.emit, State.setPc, State.setReactor] using hunset
    · simpa [State.startCall, State.emit, State.setPc, State.setReactor] using hunremoved
    · simp [State.startCall, State.emit]
    · simpa [State.startCall, State.emit, State.setPc, State.setReactor] using hundone
  · exact h.fresh_step hknown rfl rfl
  · show Guarded _ (s.trace ++ [_])
    rw [guarded_concat]
    exact ⟨h.guarded, trivial⟩

/-- The reactor is published, its hold not yet looked at. -/
lemma Conn.withReactor (h : Conn s (.started c)) : Conn (s.withReactor w c) (.published c) := by
  obtain ⟨hhold, hdone, hflag, hflight, hcall, hundone⟩ := h.own
  obtain ⟨hpending, hholds, hunset, hunremoved⟩ := hhold.of_unset hflag
  have hknown : c < s.nextConn := h.known c rfl
  refine ⟨h.ctx, rfl, h.active, h.known, ?_, h.writes, h.flight, ?_, ?_, ?_⟩
  · intro c' hc' hstop
    exact List.mem_append_left _ (h.cancelled c' hc' hstop)
  · refine ⟨?_, hdone, List.mem_append_left _ hcall, ?_⟩
    · exact .kept hflag hpending hholds (by simpa [State.withReactor] using hunset)
        (by simpa [State.withReactor] using hunremoved)
    · simpa [State.withReactor] using hundone
  · intro c' hc'
    exact ⟨(h.fresh c' hc').1, fresh_concat (h.fresh c' hc').2 rfl (hknown.trans_le hc')⟩
  · show Guarded _ (s.trace ++ [_])
    rw [guarded_concat]
    exact ⟨h.guarded, trivial⟩

lemma Conn.publish (h : Conn s (.started c)) :
    Conn (s.publish w c) (.published c) ∧ Released (s.publish w c) := by
  obtain ⟨-, hdone, hflag, -⟩ := h.own
  -- `OnDone` waits for the hold, so `done_` is still unset here
  rcases publish_cases s w c with ⟨hd, -⟩ | ⟨-, -, -, heq⟩ | ⟨-, hwhy, heq⟩
  · exact absurd (hdone.symm.trans hd) (by simp)
  · rw [heq]
    refine ⟨h.withReactor.releaseLocked _, ?_⟩
    intro c' hc' _
    exact holdReleased_releaseLocked _ _ hc'
  · rw [heq]
    refine ⟨h.withReactor.maybeWriteLocked, released_maybeWriteLocked ?_⟩
    rcases hwhy with ⟨hstop, hbroken⟩ | hset
    · intro c' _ hbad
      rcases hbad with hbad | hbad
      · exact absurd (hbroken.symm.trans hbad) (by simp)
      · exact absurd (hstop.symm.trans hbad) (by simp)
    · exact absurd (hflag.symm.trans hset) (by simp)

/-- The wait for `done_` is over. -/
lemma Conn.finishOnce (h : Conn s (.finished c)) : Conn (s.finishOnce w) .none := by
  refine ⟨rfl, h.reactor, h.active, ?_, ?_, h.writes, ?_, h.own.1, h.fresh, h.guarded⟩
  · intro c' hc'
    exact absurd hc' (by simp [Stage.ctx])
  · intro c' hc'
    exact absurd hc' (by simp [Stage.ctx])
  · intro c' hc'
    exact absurd hc' (by simp [Stage.active])

lemma Conn.stage_of_active (h : Conn s g) (ha : s.Active c) :
    g = .started c ∨ g = .published c := by
  rw [h.active] at ha
  cases g <;> simp_all [Stage.active]

/-- A reactor with an outstanding write is published. -/
lemma Conn.stage_of_writes (h : Conn s g) (ha : s.Active c) (hw : 0 < (s.reactors c).writes) :
    g = .published c := by
  rcases h.stage_of_active ha with rfl | rfl
  · exact absurd (h.flight c rfl h.own.2.2.2.1) (by omega)
  · rfl

/-- A write completes; `write_in_flight_` is cleared or left as it is. -/
lemma Conn.completeWrite (h : Conn s (.published c)) (flight : Bool) :
    Conn { s.setReactor c { s.reactors c with writes := (s.reactors c).writes - 1 } with
      writeInFlight := flight } (.published c) := by
  obtain ⟨hhold, hdone, hcall, hundone⟩ := h.own
  have hknown : c < s.nextConn := h.known c rfl
  have hle := h.writes c
  refine ⟨h.ctx, h.reactor, ?_, h.known, h.cancelled, ?_, ?_, ?_, ?_, h.guarded⟩
  · intro c'
    rw [← h.active c']
    exact active_update (s := s) (c := c) rfl (by rfl) (by rfl) c'
  · exact h.writes_update rfl ((Nat.sub_le ..).trans (h.writes c))
  · intro c' hc' _
    obtain rfl : c = c' := Option.some.inj hc'
    simp only [State.setReactor, Function.update_self]
    omega
  · refine ⟨?_, hdone, hcall, hundone⟩
    cases hhold with
    | kept hflag hpending hholds hunset hunremoved =>
      exact .kept hflag hpending (by simpa [State.setReactor] using hholds) hunset hunremoved
    | decided caller hflag hpending hholds hunremoved =>
      exact .decided caller hflag hpending (by simpa [State.setReactor] using hholds) hunremoved
    | removed hflag hpending hholds hremoved =>
      exact .removed hflag hpending (by simpa [State.setReactor] using hholds) hremoved
  · intro c' hc'
    exact ⟨ops_update rfl (hknown.trans_le hc') (h.fresh c' hc').1, (h.fresh c' hc').2⟩

lemma Conn.readClosed (h : Conn s g) (caller : Caller) :
    Conn (s.handleReadClosed caller) g ∧ Released (s.handleReadClosed caller) := by
  have hbroken : Conn { s with broken := true } g :=
    h.frame (.of_eq rfl ⟨[], by simp, by simp⟩)
  refine ⟨hbroken.releaseLocked caller, ?_⟩
  intro c hc _
  exact holdReleased_releaseLocked _ caller hc

lemma Conn.writeDone (h : Conn s (.published c)) (hrel : Released s) (ok : Bool) :
    let s' := (s.setReactor c
      { s.reactors c with writes := (s.reactors c).writes - 1 }).handleWriteDone c ok
    Conn s' (.published c) ∧ Released s' := by
  unfold State.handleWriteDone
  cases ok with
  | true => exact ⟨(h.completeWrite false).maybeWriteLocked, released_maybeWriteLocked hrel⟩
  -- a failed write leaves `write_in_flight_` set and breaks the stream
  | false => exact (h.completeWrite s.writeInFlight).readClosed (.write c)

/-- `OnDone` finds the hold removed. -/
lemma Conn.done (h : Conn s g) (ha : s.Active c) (hholds : (s.reactors c).holds = 0)
    (status : Status) :
    g = .published c ∧
      Conn (((s.setReactor c { s.reactors c with finished := true }).handleDone status).emit
        (.done c)) (.finished c) := by
  -- before the publication nobody has removed the hold
  have hg : g = .published c := by
    rcases h.stage_of_active ha with rfl | rfl
    · have hone := (h.own.1.of_unset h.own.2.2.1).2.1
      exact absurd (hholds.symm.trans hone) (by simp)
    · rfl
  subst hg
  have hknown : c < s.nextConn := h.known c rfl
  refine ⟨rfl, h.ctx, rfl, ?_, h.known, ?_, ?_, ?_, ?_, ?_, ?_⟩
  · intro c'
    simp only [Stage.active, reduceCtorEq, iff_false]
    by_cases hc' : c' = c
    · simp [State.Active, State.emit, State.handleDone, State.setReactor, hc']
    · intro hact
      have : s.Active c' := by
        simpa [State.Active, State.emit, State.handleDone, State.setReactor,
          Function.update_of_ne hc'] using hact
      rw [h.active] at this
      exact hc' (Option.some.inj this).symm
  · intro c' hc' hstop
    exact List.mem_append_left _ (h.cancelled c' hc' hstop)
  · exact h.writes_update rfl (h.writes c)
  · intro c' hc'
    exact absurd hc' (by simp [Stage.active])
  · refine ⟨?_, rfl⟩
    cases h.own.1 with
    | kept _ hpending => exact hpending
    | decided _ _ _ hone => exact absurd (hholds.symm.trans hone) (by simp)
    | removed _ hpending => exact hpending
  · exact h.fresh_step hknown rfl rfl
  · show Guarded _ (s.trace ++ [_])
    rw [guarded_concat]
    exact ⟨h.guarded, trivial⟩

/-- A pending `RemoveHold` is the one of the published reactor. -/
lemma Conn.stage_of_release {caller : Caller} (h : Conn s g) (hmem : (caller, c) ∈ s.releases) :
    g = .published c ∧ s.releases = [(caller, c)] := by
  have hne : s.releases ≠ [] := List.ne_nil_of_mem hmem
  cases g with
  | none => exact absurd h.own hne
  | bound c' => exact absurd h.own.1 hne
  | finished c' => exact absurd h.own.1 hne
  | started c' => exact absurd (h.own.1.of_unset h.own.2.2.1).1 hne
  | published c' =>
    cases h.own.1 with
    | kept _ hpending => exact absurd hpending hne
    | decided caller' _ hpending =>
      rw [hpending, List.mem_singleton] at hmem
      cases hmem
      exact ⟨rfl, hpending⟩
    | removed _ hpending => exact absurd hpending hne

lemma Conn.removeHold {caller : Caller} (h : Conn s g) (hmem : (caller, c) ∈ s.releases) :
    g = .published c ∧
      Conn (({ s with releases := s.releases.erase (caller, c) }.setReactor c
        { s.reactors c with holds := (s.reactors c).holds - 1 }).emit (.removeHold c))
        (.published c) := by
  obtain ⟨rfl, hpending⟩ := h.stage_of_release hmem
  obtain ⟨hhold, hdone, hcall, hundone⟩ := h.own
  have hknown : c < s.nextConn := h.known c rfl
  -- the hold was decided to be removed, and by this caller alone
  have hdecided : s.holdReleased = true ∧ (s.reactors c).holds = 1 ∧ .removeHold c ∉ s.trace := by
    cases hhold with
    | kept _ hnil => exact absurd (hpending.symm.trans hnil) (by simp)
    | decided _ hflag _ hholds hunremoved => exact ⟨hflag, hholds, hunremoved⟩
    | removed _ hnil => exact absurd (hpending.symm.trans hnil) (by simp)
  refine ⟨rfl, h.ctx, h.reactor, ?_, h.known, ?_, ?_, ?_, ?_, ?_, ?_⟩
  · intro c'
    rw [← h.active c']
    exact active_update (s := s) (c := c) rfl (by rfl) (by rfl) c'
  · intro c' hc' hstop
    exact List.mem_append_left _ (h.cancelled c' hc' hstop)
  · exact h.writes_update rfl (h.writes c)
  · intro c' hc' hflight
    obtain rfl : c = c' := Option.some.inj hc'
    simpa [State.emit, State.setReactor] using h.flight c rfl hflight
  · refine ⟨.removed hdecided.1 ?_ ?_ ?_, hdone, List.mem_append_left _ hcall, ?_⟩
    · simp [State.emit, State.setReactor, hpending]
    · simp [State.emit, State.setReactor, hdecided.2.1]
    · simp [State.emit]
    · simpa [State.emit, State.setReactor] using hundone
  · exact h.fresh_step hknown rfl rfl
  · show Guarded _ (s.trace ++ [_])
    rw [guarded_concat]
    exact ⟨h.guarded, hdecided.2.2, hundone⟩

/-! ## Every reachable state -/

/-- The connection invariant at the stage of the worker that runs. -/
def ConnAt (s : State) (pc : Pc Once) : Prop := ∃ g : Stage, g.AtPc pc ∧ Conn s g ∧ Released s

lemma atPc_none_of_step {worker worker' : Worker Once} {es : List (SessionEvent Call)}
    {stopping gotData : Bool}
    (h : worker.step cfg.opts .fill w stopping gotData = some (worker', es)) :
    Stage.none.AtPc worker'.pc := by
  cases hpc : worker'.pc with
  | once k =>
    rw [Worker.eq_first_of_step h hpc]
    rfl
  | _ => rfl

lemma stage_none_of_pc (h : g.AtPc pc) (hpc : ∀ k, pc = .once k → False) : g = .none := by
  cases pc with
  | once k => exact absurd rfl (hpc k)
  | _ => exact h

lemma pc_of_published (h : (Stage.published c).AtPc pc) : pc = .once (.waiting c) := by
  cases pc with
  | once k =>
    cases k with
    | waiting c' =>
      rcases h with h | h
      · cases h
        rfl
      · exact absurd h (by simp)
    | _ => exact absurd h (by simp [Stage.AtPc])
  | _ => exact absurd h (by simp [Stage.AtPc])

lemma ConnAt.frame (h : ConnAt s pc) (hf : Frame s s') (hbroken : s'.broken = s.broken)
    (hstopping : s'.stopping = s.stopping) : ConnAt s' pc := by
  obtain ⟨g, hg, hconn, hrel⟩ := h
  refine ⟨g, hg, hconn.frame hf, ?_⟩
  intro c hc hbad
  rw [hf.holdReleased]
  rw [hf.reactor] at hc
  rw [hbroken, hstopping] at hbad
  exact hrel c hc hbad

/-- **Every move keeps the connection invariant.** -/
lemma ConnAt.move (h : ConnAt s pc) (hm : Move cfg s w pc a s' w' pc') : ConnAt s' pc' := by
  obtain ⟨g, hg, hconn, hrel⟩ := id h
  cases hm with
  | launch hpc =>
    -- no worker runs, so there is no connection whose cancellation `start()` could forget
    subst hpc
    obtain rfl : g = .none := hg
    refine ⟨.none, rfl, ?_, ?_⟩
    · apply hconn.frame
      exact { stopping := by simp, trace := ⟨[_], rfl, frame_session [_] _⟩ }
    · intro c hc
      exact absurd (hconn.reactor.symm.trans hc) (by simp [Stage.reactor])
  | joinable => exact h
  | stop t => exact ⟨g, hg, hconn.stop t, released_stop s t⟩
  | returnStop t target =>
    exact h.frame (.of_eq rfl ⟨[_], rfl, frame_session [_] _⟩) rfl rfl
  | send request remember => exact ⟨g, hg, hconn.send _, released_send hrel _⟩
  | run worker es hpc _ hstep =>
    obtain rfl := stage_none_of_pc hg hpc
    have hnone : ConnAt s worker.pc := ⟨.none, atPc_none_of_step hstep, hconn, hrel⟩
    exact hnone.frame (.of_eq rfl ⟨_, rfl, frame_session es _⟩) rfl rfl
  | cancelled hpc hstopping =>
    subst hpc
    obtain rfl : g = .none := hg
    have hnone : ConnAt s (.returned .cancelled) := ⟨.none, rfl, hconn, hrel⟩
    unfold State.fill
    rw [if_pos hstopping]
    exact hnone.frame (frame_setPc s w _) rfl rfl
  | fill hpc hstopping =>
    subst hpc
    obtain rfl : g = .none := hg
    refine ⟨_, rfl, hconn.fill hstopping, ?_⟩
    intro c hc
    exact absurd ((hconn.fill hstopping).reactor.symm.trans hc) (by simp [Stage.reactor])
  | startCall c hpc =>
    subst hpc
    obtain rfl : g = .bound c := hg
    refine ⟨_, rfl, hconn.startCall, ?_⟩
    intro c' hc'
    exact absurd (hconn.reactor.symm.trans hc') (by simp [Stage.reactor])
  | publish c hpc =>
    subst hpc
    obtain rfl : g = .started c := hg
    exact ⟨_, Or.inl rfl, hconn.publish⟩
  | finishOnce c hpc hdone =>
    subst hpc
    rcases hg with rfl | rfl
    · -- `done_` is set by `OnDone` only
      exact absurd (hconn.own.2.1.symm.trans hdone) (by simp)
    · refine ⟨.none, rfl, hconn.finishOnce, ?_⟩
      intro c' hc'
      exact absurd (hconn.reactor.symm.trans hc') (by simp [Stage.reactor])
  | response c r =>
    unfold State.handleResponse
    split
    · exact h.frame (frame_reading s c _) rfl rfl
    · have hgot : Frame _ { s.setReactor c _ with gotData := true } :=
        (frame_reading s c (.connected r)).trans
          (.of_eq rfl ⟨[], by simp [State.setReactor], by simp⟩)
      exact h.frame hgot rfl rfl
  | readClosed c =>
    exact ⟨g, hg, (hconn.frame (frame_reading s c .idle)).readClosed (.read c)⟩
  | connected c r =>
    exact h.frame ((frame_reading s c _).trans (frame_emit_session _ _)) rfl rfl
  | handled c call calls =>
    exact h.frame ((frame_reading s c _).trans (frame_emit_session _ _)) rfl rfl
  | startRead c => exact h.frame (frame_reading s c _) rfl rfl
  | writeDone c ok hactive hwrites =>
    obtain rfl := hconn.stage_of_writes hactive hwrites
    exact ⟨_, hg, hconn.writeDone hrel ok⟩
  | done c status hactive hholds =>
    obtain ⟨rfl, hfinished⟩ := hconn.done hactive hholds status
    refine ⟨.finished c, ?_, hfinished, ?_⟩
    · rw [pc_of_published hg]
      exact Or.inr rfl
    · intro c' hc'
      exact absurd hc' (by simp [State.emit, State.handleDone])
  | removeHold caller c hmem =>
    obtain ⟨rfl, hremoved⟩ := hconn.removeHold hmem
    exact ⟨_, hg, hremoved, hrel⟩

lemma connAt_init : ConnAt {} .ended := by
  refine ⟨.none, rfl, ⟨rfl, rfl, ?_, ?_, ?_, ?_, ?_, rfl, ?_, guarded_nil⟩, ?_⟩
  · simp [State.Active, Stage.active]
  · simp [Stage.ctx]
  · simp [Stage.ctx]
  · simp
  · simp [Stage.active]
  · simp [Reactor.ops]
  · simp [Released]

/-- **The connection invariant** holds in every reachable state. -/
lemma conn_of_reachable {ok : State → Action → Prop} (hok : ∀ s a, ok s a → LaunchSafe s a)
    (h : Reachable (system cfg) ok s) : ∃ w pc, s.threads.Current w pc ∧ ConnAt s pc := by
  apply invariant_of_move (J := fun s _ pc => ConnAt s pc) hok connAt_init ?_ h
  intro s a s' w pc w' pc' _ _ _ hm hconn
  exact hconn.move hm

lemma connAt_of_current {ok : State → Action → Prop} (hok : ∀ s a, ok s a → LaunchSafe s a)
    (h : Reachable (system cfg) ok s) (hcur : s.threads.Current w pc) : ConnAt s pc := by
  obtain ⟨w', pc', hcur', hconn⟩ := conn_of_reachable hok h
  rwa [(hcur.pc_eq hcur').1]

/-! ## The reactor protocol -/

/-- **The stream obeys the reactor protocol and cannot strand its hold.** While `start()` is
not called beside a `stop()` in progress:
(a) at most one `StartWrite` is outstanding on a reactor;
(b) `StartWrite` is issued after `StartCall` and before the hold is released;
(c) `RemoveHold` is issued at most once, and not after `OnDone`;
(d) the hold of a published reactor is released once the stream is broken or stopping, the
context of a stopping stream is cancelled, and a released hold is removed, or there is a
thread whose next step removes it. -/
theorem reactor_protocol (h : Reachable (system cfg) NonOverlap s) :
    (∀ c, (s.reactors c).writes ≤ 1) ∧
    (∀ pre c o post, s.trace = pre ++ .startWrite c o :: post →
      .startCall c ∈ pre ∧ .holdReleased c ∉ pre) ∧
    (∀ pre c post, s.trace = pre ++ .removeHold c :: post →
      .removeHold c ∉ pre ∧ .done c ∉ pre) ∧
    (∀ c, s.reactor = some c → s.broken = true ∨ s.stopping = true → s.holdReleased = true) ∧
    (∀ c, s.ctx = some c → s.stopping = true → .tryCancel c ∈ s.trace) ∧
    (∀ c, s.reactor = some c → s.holdReleased = true →
      .removeHold c ∈ s.trace ∨
        ∃ caller, (step cfg s (.removeHold caller c)).isSome) := by
  obtain ⟨w, pc, -, g, -, hconn, hrel⟩ := conn_of_reachable NonOverlap.launchSafe h
  refine ⟨hconn.writes, ?_, ?_, hrel, ?_, ?_⟩
  · intro pre c o post htrace
    exact hconn.guarded pre _ post htrace
  · intro pre c post htrace
    exact hconn.guarded pre _ post htrace
  · intro c hc hstop
    exact hconn.cancelled c (hconn.ctx.symm.trans hc) hstop
  · intro c hc hset
    -- a decided `RemoveHold` is enabled
    obtain rfl := hconn.eq_published hc
    cases hconn.own.1 with
    | kept hflag => exact absurd (hflag.symm.trans hset) (by simp)
    | decided caller _ hpending =>
      refine Or.inr ⟨caller, ?_⟩
      simp [step, State.removeHold, hpending]
    | removed _ _ _ hremoved => exact Or.inl hremoved

/-- A `stop()` of a published connection, before it removes the hold. -/
theorem reactor_protocol_stopping :
    ∃ s, Reachable (system demoConfig) NonOverlap s ∧ s.reactor = some 0 ∧ s.stopping = true ∧
      s.holdReleased = true ∧ .tryCancel 0 ∈ s.trace := by
  obtain ⟨s, hreach, hp⟩ := exists_reachable_of_run (system demoConfig) NonOverlap
    (fun s => s.reactor == some 0 && s.ctx == some 0 && s.stopping)
    (connectSteps ++ [.stop 0]) (by decide +kernel)
  simp only [Bool.and_eq_true, beq_iff_eq] at hp
  obtain ⟨⟨hreactor, hctx⟩, hstop⟩ := hp
  have hprotocol := reactor_protocol hreach
  exact ⟨s, hreach, hreactor, hstop, hprotocol.2.2.2.1 0 hreactor (Or.inr hstop),
    hprotocol.2.2.2.2.1 0 hctx hstop⟩

end MarketDataStream
end TInvest
