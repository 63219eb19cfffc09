import TInvest.Call.AwaitableSteps

/-!
# Coroutines run like blocking code

Whatever the limiter answers, whichever thread a completion runs on and however the threads
interleave:

* `coroutines_safe` — the behaviour is defined, and one thread at a time runs the program;
* `calls_in_order` — the program awaits its calls one after the other, each invoked once, and
  `sync_wait` returns what the direct evaluation of the program gives with the same answers;
* `syncWait_terminates`, `syncWait_returns` — there is no infinite run, and when no thread can go
  on and the server owes no answer, `sync_wait` has returned and every frame and every `State` is
  gone.
-/

namespace TInvest
namespace Awaitable

open Lib.Interaction
open Lib.Transition
open Detail

section
variable {Req Resp V E : Type}

/-! ## Runs -/

section
variable {body : Body Req Resp V E} {s s' : State Req Resp V E}

/-- `sync_wait` starts the program. -/
lemma inv_of_start {a : Action Resp} (hs : step (start body) a = some s') :
    ∃ ctl cfg rank log cold, Inv body s' ctl cfg rank log cold := by
  cases a with
  | run t =>
    by_cases ht : t = 0
    · subst ht
      have hs' : s' = ((start body).setFrame 0
          { (start body).frames 0 with onComplete := true }).setThread 0
            [.resume 0, .acquire] := by
        simpa [step, runThread, start, activate] using hs.symm
      subst hs'
      have hframe : (start body).frames 0 = { point := .initial body } := by
        simp [start]
      refine ⟨.hot 0 (.resume 0), ⟨.eval body, []⟩, 2, [],
        Function.update (fun _ => []) 0 [.acquire],
        ⟨?_, ⟨[], .start (show Live _ 0 [] from ?_) ?_ ?_, rfl⟩, .refl⟩⟩
      · refine ⟨?_, fun u => ?_, fun u hu => ?_, fun u b hb => ?_, fun c => ?_, fun c _ => rfl,
          by simp [start, State.setThread, State.setFrame], fun _ => rfl, rfl⟩
        · simp [start, State.setThread, State.setFrame, Control.threads]
        · by_cases hu : u = 0
          · subst hu
            exact ⟨[], by simp, by simp [bottom, Control.main]⟩
          · refine ⟨[], by simp, ?_⟩
            rw [Function.update_of_ne hu]
            cases u with
            | zero => exact absurd rfl hu
            | succ c => rfl
        · have hu' : 0 < u := hu
          rw [Function.update_of_ne (by omega)]
        · cases hb
          exact Nat.zero_le _
        · simp [start, State.setThread, State.setFrame]
      · refine ⟨⟨.root ?_, fun g hg _ => ?_, Nat.zero_lt_one⟩, ?_⟩
        · simp [State.setThread, State.setFrame, hframe]
        · simp [start, State.setThread, State.setFrame, Function.update_of_ne hg]
        · simp [State.setThread, State.setFrame]
      · simp [State.setThread, State.setFrame, hframe, Frame.Unfinished]
      · simp [State.setThread, State.setFrame, hframe]
    · simp [step, runThread, start, Function.update_of_ne ht] at hs
  | tryAcquire t admitted =>
    by_cases ht : t = 0
    · subst ht
      simp [step, tryAcquire, start] at hs
    · simp [step, tryAcquire, start, Function.update_of_ne ht] at hs
  | complete c answer => simp [step, complete, start] at hs

/-- A reachable state implements a configuration that the program reaches. -/
lemma inv_of_reachable {ok : State Req Resp V E → Action Resp → Prop}
    (h : Reachable (syncWait body) ok s) :
    s = start body ∨ ∃ ctl cfg rank log cold, Inv body s ctl cfg rank log cold := by
  refine h.invariant (I := fun s => s = start body ∨
    ∃ ctl cfg rank log cold, Inv body s ctl cfg rank log cold) (Or.inl rfl) ?_
  intro s a s' _ hi _ hs
  right
  rcases hi with rfl | ⟨ctl, cfg, rank, log, cold, hi⟩
  · exact inv_of_start hs
  · obtain ⟨ctl', cfg', rank', log', cold', hi', -⟩ := hi.step hs
    exact ⟨ctl', cfg', rank', log', cold', hi'⟩

/-- `s'` comes right after `s`. -/
def After (s' s : State Req Resp V E) : Prop := ∃ a, step s a = some s'

/-- The configuration first, then the steps to the next one, then what only returns. -/
def Measure : Conf Req (Result Resp) V E × ℕ × ℕ → Conf Req (Result Resp) V E × ℕ × ℕ → Prop :=
  Prod.Lex Next (Prod.Lex (· < ·) (· < ·))

lemma wellFounded_measure : WellFounded (@Measure Req Resp V E) :=
  (Prod.lex ⟨Next, wellFounded_next⟩ (Prod.lex Nat.lt_wfRel Nat.lt_wfRel)).wf

/-- Below a state that implements a configuration there is no infinite run. -/
lemma acc_of_inv (m : Conf Req (Result Resp) V E × ℕ × ℕ) :
    ∀ (s : State Req Resp V E) (ctl : Control Req Resp V E) (log : List (Req × Outcome Resp))
      (cold : ℕ → List (Activation Req Resp V E)),
      Inv body s ctl m.1 m.2.1 log cold → m.2.2 = load s cold → Acc After s := by
  induction m using wellFounded_measure.induction with
  | _ m ih =>
    intro s ctl log cold h hload
    refine ⟨_, ?_⟩
    rintro s' ⟨a, hs⟩
    obtain ⟨ctl', cfg', rank', log', cold', h', hlower⟩ := h.step hs
    refine ih (cfg', rank', load s' cold') ?_ s' ctl' log' cold' h' rfl
    rcases hlower with hnext | ⟨rfl, hrank | ⟨rfl, hlt⟩⟩
    · exact Prod.Lex.left _ _ hnext
    · exact Prod.Lex.right _ (Prod.Lex.left _ _ hrank)
    · exact Prod.Lex.right _ (Prod.Lex.right _ (by rw [hload]; exact hlt))

lemma acc_of_reachable {ok : State Req Resp V E → Action Resp → Prop}
    (h : Reachable (syncWait body) ok s) : Acc After s := by
  rcases inv_of_reachable h with rfl | ⟨ctl, cfg, rank, log, cold, hi⟩
  · refine ⟨_, ?_⟩
    rintro s' ⟨a, hs⟩
    obtain ⟨ctl, cfg, rank, log, cold, hi⟩ := inv_of_start hs
    exact acc_of_inv (cfg, rank, load s' cold) s' ctl log cold hi rfl
  · exact acc_of_inv (cfg, rank, load s cold) s ctl log cold hi rfl

/-! ### Where nothing can go on -/

/-- Nothing can go on: no thread can make a step, the limiter owes no answer and the server
neither. -/
structure Quiescent (s : State Req Resp V E) : Prop where
  threads : ∀ t, runThread t s = none
  limiter : ∀ t admitted, tryAcquire t admitted s = none
  server : ∀ c, (s.calls c).point ≠ .inFlight

/-- A thread that cannot go on waits for the semaphore, or for the limiter. -/
lemma runThread_eq_none {t : ℕ} {a : Activation Req Resp V E}
    {rest : List (Activation Req Resp V E)} (htop : s.threads t = a :: rest)
    (h : runThread t s = none) :
    (∃ f req, a = .suspend f req) ∨ a = .acquire ∧ s.semaphore = false := by
  rw [runThread, htop] at h
  cases a with
  | suspend f req => exact Or.inl ⟨f, req, rfl⟩
  | acquire =>
    right
    refine ⟨rfl, ?_⟩
    by_contra hsemaphore
    rw [Bool.not_eq_false] at hsemaphore
    simp [activate, hsemaphore] at h
  | _ => simp [activate] at h

lemma Quiescent.top {t : ℕ} {a : Activation Req Resp V E} {rest : List (Activation Req Resp V E)}
    (h : Quiescent s) (htop : s.threads t = a :: rest) : a = .acquire ∧ s.semaphore = false := by
  rcases runThread_eq_none htop (h.threads t) with ⟨f, req, rfl⟩ | ha
  · have hask := h.limiter t false
    simp [tryAcquire, htop] at hask
  · exact ha

/-- Then `sync_wait` has returned and its thread and the others are at their ends. -/
lemma Inv.quiescent {ctl : Control Req Resp V E} {cfg : Conf Req (Result Resp) V E} {rank : ℕ}
    {log : List (Req × Outcome Resp)} {cold : ℕ → List (Activation Req Resp V E)}
    (h : Inv body s ctl cfg rank log cold) (hq : Quiescent s) :
    ctl = .returned ∧ ∀ u, cold u = [] := by
  have hboard := h.board
  have hreturned : ctl = .returned := by
    cases ctl with
    | hot t a =>
      have htop : s.threads t = a :: cold t := by
        rw [hboard.threads, Control.threads, Function.update_self]
      obtain ⟨rfl, -⟩ := hq.top htop
      obtain ⟨pending, hat, -⟩ := h.here
      cases hat
    | flying c => exact absurd ((hboard.inFlight c).mpr rfl) (hq.server c)
    | signalled =>
      have hsemaphore := hboard.semaphore.mpr rfl
      obtain ⟨l, hl, hcold⟩ := hboard.quiet 0
      have hthread : s.threads 0 = l ++ [.acquire] := by
        rw [hboard.threads]
        exact hcold
      obtain ⟨a, rest, hcons⟩ := List.exists_cons_of_ne_nil
        (List.append_ne_nil_of_right_ne_nil l (List.cons_ne_nil Activation.acquire []))
      obtain ⟨-, hfalse⟩ := hq.top (hthread.trans hcons)
      rw [hsemaphore] at hfalse
      cases hfalse
    | collecting =>
      obtain ⟨l, hl, hcold⟩ := hboard.quiet 0
      have hthread : s.threads 0 = l ++ [.collect] := by
        rw [hboard.threads]
        exact hcold
      cases l with
      | nil =>
        obtain ⟨ha, -⟩ := hq.top (show s.threads 0 = .collect :: [] from hthread)
        cases ha
      | cons a l =>
        obtain ⟨rfl, -⟩ := hq.top (show s.threads 0 = a :: (l ++ [.collect]) from hthread)
        exact (hl _ (List.mem_cons_self ..)).elim
    | returned => rfl
  subst hreturned
  refine ⟨rfl, fun u => ?_⟩
  cases htop : cold u with
  | nil => rfl
  | cons a rest =>
    have hthread : s.threads u = a :: rest := by
      rw [hboard.threads]
      exact htop
    obtain ⟨rfl, -⟩ := hq.top hthread
    rcases hboard.quiet.top htop with ⟨ha, -⟩ | ⟨c, -, ha, -⟩ | ⟨-, hmain⟩
    · exact ha.elim
    · cases ha
    · simp [Control.main] at hmain

/-- The activation is part of the program, or on the way to it. -/
def Active : Activation Req Resp V E → Prop
  | .resume _ => True
  | .run _ _ => True
  | .suspend _ _ => True
  | .deliver _ _ => True
  | .callback _ _ => True
  | .final _ => True
  | .release => True
  | _ => False

/-- Only the activation in control is active. -/
lemma Inv.active {ctl : Control Req Resp V E} {cfg : Conf Req (Result Resp) V E} {rank : ℕ}
    {log : List (Req × Outcome Resp)} {cold : ℕ → List (Activation Req Resp V E)}
    (h : Inv body s ctl cfg rank log cold) {t : ℕ} {a : Activation Req Resp V E}
    {rest : List (Activation Req Resp V E)} (htop : s.threads t = a :: rest) (ha : Active a) :
    ctl = .hot t a := by
  by_cases hot : ∃ b, ctl = .hot t b
  · obtain ⟨b, rfl⟩ := hot
    rw [h.board.threads, Control.threads, Function.update_self, List.cons.injEq] at htop
    rw [htop.1]
  · rw [h.board.threads, Control.threads_of_ne fun b hb => hot ⟨b, hb⟩] at htop
    rcases h.board.quiet.top htop with ⟨hret, -⟩ | ⟨c, -, rfl, -⟩ | ⟨-, hmain⟩
    · cases a <;> first | exact ha.elim | exact hret.elim
    · exact ha.elim
    · rcases Control.main_cases hmain with rfl | rfl
      · exact ha.elim
      · exact ha.elim

/-- When `sync_wait` has returned, every call is finished, and the outcome is the program's. -/
lemma Inv.eval {ctl : Control Req Resp V E} {cfg : Conf Req (Result Resp) V E} {rank : ℕ}
    {log : List (Req × Outcome Resp)} {cold : ℕ → List (Activation Req Resp V E)}
    (h : Inv body s ctl cfg rank log cold) {x : Except E V} (hx : s.returned = some x) :
    s.trace = log.flatMap exchangeEvents ∧ body.Eval (log.map exchangeAnswer) x := by
  obtain ⟨pending, hat, htrace⟩ := h.here
  have hctl : ctl = .returned := by
    by_contra hne
    rw [h.board.returned hne] at hx
    cases hx
  subst hctl
  cases hat with
  | returned hdead hx' =>
    rw [hx', Option.some.injEq] at hx
    subst hx
    rw [List.append_nil] at htrace
    exact ⟨htrace, eval_of_steps h.steps⟩

/-- Threads without activations do nothing. -/
lemma quiescent_of_idle {ok : State Req Resp V E → Action Resp → Prop}
    (h : Reachable (syncWait body) ok s)
    (hthreads : ∀ t ≤ s.nextCall, s.threads t = [])
    (hserver : ∀ c < s.nextCall, (s.calls c).point ≠ .inFlight) : Quiescent s := by
  have hidle : ∀ t, s.threads t = [] := by
    intro t
    by_cases ht : t ≤ s.nextCall
    · exact hthreads t ht
    · rcases inv_of_reachable h with rfl | ⟨ctl, cfg, rank, log, cold, hi⟩
      · have h0 : t ≠ 0 := by
          rintro rfl
          exact ht (Nat.zero_le _)
        simp [start, Function.update_of_ne h0]
      · rw [hi.board.threads]
        have hne : ∀ a, ctl ≠ .hot t a := fun a ha => ht (hi.board.hot_le t a ha)
        rw [Control.threads_of_ne hne]
        exact hi.board.idle t (by omega)
  refine ⟨fun t => by simp [runThread, hidle t], fun t b => by simp [tryAcquire, hidle t], ?_⟩
  intro c
  by_cases hc : c < s.nextCall
  · exact hserver c hc
  · rcases inv_of_reachable h with rfl | ⟨ctl, cfg, rank, log, cold, hi⟩
    · simp [start]
    · rw [hi.board.fresh c (by omega)]
      simp

end

end

/-! ## A run -/

/-- A task that makes a call, and a call after it. -/
def relay : Body String ℕ ℕ Unit :=
  .call (.ask "first" fun r => r.casesOn (fun _ => .throw ()) .ret) fun x =>
    .ask "second" fun r => r.casesOn (fun _ => x.casesOn .throw .ret) .ret

/-- The first call is admitted and completed before the stub returns, the second one is turned
away on the thread of the completion. -/
def relaySteps : List (Action ℕ) :=
  List.replicate 5 (.run 0) ++
    [.tryAcquire 0 true, .complete 0 { status := {}, trailing := [], resp := 7 }] ++
    List.replicate 7 (.run 1) ++ [.tryAcquire 1 false] ++ List.replicate 9 (.run 1) ++
    List.replicate 4 (.run 0)

/-! ## Results -/

section
variable {Req Resp V E : Type} {body : Body Req Resp V E}
  {ok : State Req Resp V E → Action Resp → Prop} {s : State Req Resp V E}

/-- **Safety.** In every run nothing undefined happens: no frame and no `State` is used or
destroyed after it is gone, no coroutine is resumed unless it is suspended, no empty result is
read. And no two threads are in the program at once. -/
theorem coroutines_safe (h : Reachable (syncWait body) ok s) :
    s.fault = false ∧ ∀ t u a b l m, s.threads t = a :: l → s.threads u = b :: m →
      Active a → Active b → t = u := by
  rcases inv_of_reachable h with rfl | ⟨ctl, cfg, rank, log, cold, hi⟩
  · refine ⟨rfl, fun t u a b l m ht _ ha _ => ?_⟩
    by_cases h0 : t = 0
    · subst h0
      obtain rfl : Activation.syncWait = a := by
        simpa [start] using (List.cons.inj ht).1
      exact ha.elim
    · simp [start, Function.update_of_ne h0] at ht
  · refine ⟨hi.board.fault, fun t u a b l m ht hu ha hb => ?_⟩
    have hctl := (hi.active ht ha).symm.trans (hi.active hu hb)
    cases hctl
    rfl

/-- Safe between the completion of the first call and the return of its stub. -/
theorem coroutines_safe_relay :
    ∃ s, Reachable (syncWait relay) (fun _ _ => True) s ∧ (s.threads 0).length = 3 ∧
      (s.threads 1).length = 3 ∧ s.fault = false := by
  obtain ⟨s, hs, hp⟩ := exists_reachable_of_run (syncWait relay) (fun _ _ => True)
    (fun s => decide ((s.threads 0).length = 3 ∧ (s.threads 1).length = 3)) (relaySteps.take 9)
    (by decide +kernel)
  simp only [decide_eq_true_eq] at hp
  exact ⟨s, hs, hp.1, hp.2, (coroutines_safe hs).1⟩

/-- **Meaning.** In every run the calls are awaited one after the other: the trace holds the
finished ones, each turned away or invoked once and then given to the coroutine, and at most the
opening of one more. When `sync_wait` returns or throws, that is the outcome of the program with
these answers. -/
theorem calls_in_order (h : Reachable (syncWait body) ok s) :
    ∃ (log : List (Req × Outcome Resp)) (pending : List (Event Req Resp)),
      s.trace = log.flatMap exchangeEvents ++ pending ∧ pending.length ≤ 1 ∧
      ∀ x, s.returned = some x → pending = [] ∧ body.Eval (log.map exchangeAnswer) x := by
  rcases inv_of_reachable h with rfl | ⟨ctl, cfg, rank, log, cold, hi⟩
  · exact ⟨[], [], rfl, by simp, fun x hx => by cases hx⟩
  · obtain ⟨pending, hat, htrace⟩ := hi.here
    refine ⟨log, pending, htrace, ?_, fun x hx => ?_⟩
    · cases hat with
      | callback o => cases o <;> simp [Outcome.opening]
      | _ => simp
    · obtain ⟨hall, heval⟩ := hi.eval hx
      rw [hall, List.self_eq_append_right] at htrace
      exact ⟨htrace, heval⟩

/-- The run of `relay` to its end. -/
theorem calls_in_order_relay :
    ∃ (s : State String ℕ ℕ Unit) (log : List (String × Outcome ℕ)),
      Reachable (syncWait relay) (fun _ _ => True) s ∧
      s.trace = [.started "first", .resumed (.ok 7), .denied "second",
        .resumed (.error limitExceeded)] ∧
      s.trace = log.flatMap exchangeEvents ∧ relay.Eval (log.map exchangeAnswer) (.ok 7) := by
  obtain ⟨s, hs, hp⟩ := exists_reachable_of_run (syncWait relay) (fun _ _ => True)
    (fun s => decide (s.returned = some (.ok 7) ∧ s.trace = [.started "first", .resumed (.ok 7),
      .denied "second", .resumed (.error limitExceeded)])) relaySteps (by decide +kernel)
  simp only [decide_eq_true_eq] at hp
  obtain ⟨log, pending, htrace, -, hend⟩ := calls_in_order hs
  obtain ⟨rfl, heval⟩ := hend _ hp.1
  rw [List.append_nil] at htrace
  exact ⟨s, log, hs, hp.2, htrace, heval⟩

/-- **Termination.** `sync_wait` and the coroutines under it add no infinite run: there is none,
whatever the limiter and the server answer, as the control flow of the body itself is finite on
every sequence of answers. -/
theorem syncWait_terminates (body : Body Req Resp V E) :
    WellFounded fun s' s : State Req Resp V E =>
      Reachable (syncWait body) (fun _ _ => True) s ∧ After s' s := by
  refine ⟨fun s => ?_⟩
  by_cases hs : Reachable (syncWait body) (fun _ _ => True) s
  · have hacc := acc_of_reachable hs
    induction hacc with
    | intro s _ ih =>
      refine ⟨_, ?_⟩
      rintro s' ⟨-, a, ha⟩
      exact ih s' ⟨a, ha⟩ (.step a hs trivial ha)
  · exact ⟨_, fun s' hs' => absurd hs'.1 hs⟩

/-- **Progress.** Where no thread can go on and neither the limiter nor the server owes an answer,
`sync_wait` has returned, every thread is at its end, and every frame and every `State` is gone. -/
theorem syncWait_returns (h : Reachable (syncWait body) ok s) (hq : Quiescent s) :
    s.returned ≠ none ∧ (∀ t, s.threads t = []) ∧ (∀ f, (s.frames f).point = .destroyed) ∧
      ∀ c, (s.calls c).point = .freed := by
  rcases inv_of_reachable h with rfl | ⟨ctl, cfg, rank, log, cold, hi⟩
  · have hrun := hq.threads 0
    simp [runThread, start, activate] at hrun
  · obtain ⟨rfl, hcold⟩ := hi.quiescent hq
    obtain ⟨pending, hat, -⟩ := hi.here
    cases hat with
    | returned hdead hx =>
      refine ⟨by rw [hx]; simp, fun t => ?_, hdead, fun c => ?_⟩
      · rw [hi.board.threads]
        exact hcold t
      · -- a completed call would still have its end on a stack
        obtain ⟨l, -, hbottom⟩ := hi.board.quiet (c + 1)
        rw [hcold] at hbottom
        cases hc : (s.calls c).point with
        | inFlight => exact absurd hc (hq.server c)
        | completed => simp [bottom, hc] at hbottom
        | freed => rfl

end

/-- At the end of the run of `relay` nothing is left. -/
theorem syncWait_returns_relay :
    ∃ s, Reachable (syncWait relay) (fun _ _ => True) s ∧ s.nextFrame = 2 ∧ s.nextCall = 1 ∧
      (∀ f, (s.frames f).point = .destroyed) ∧ ∀ c, (s.calls c).point = .freed := by
  obtain ⟨s, hs, hp⟩ := exists_reachable_of_run (syncWait relay) (fun _ _ => True)
    (fun s => decide (s.nextFrame = 2 ∧ s.nextCall = 1 ∧ (s.threads 0).length = 0 ∧
      (s.threads 1).length = 0 ∧ (s.calls 0).point = .freed)) relaySteps (by decide +kernel)
  simp only [decide_eq_true_eq, List.length_eq_zero_iff] at hp
  obtain ⟨hframe, hcall, h0, h1, hfreed⟩ := hp
  have hq : Quiescent s := by
    refine quiescent_of_idle hs (fun t ht => ?_) fun c hc => ?_
    · rw [hcall] at ht
      interval_cases t
      · exact h0
      · exact h1
    · rw [hcall] at hc
      interval_cases c
      rw [hfreed]
      simp
  obtain ⟨-, -, hframes, hcalls⟩ := syncWait_returns hs hq
  exact ⟨s, hs, hframe, hcall, hframes, hcalls⟩

end Awaitable
end TInvest
