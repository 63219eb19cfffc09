import TInvest.Call.Awaitable

/-!
# One thread of control

At any time one activation moves the program of a coroutine on, or none does and the server or the
waiting `sync_wait` is next. Every other activation only returns.

* `Chain` — the live frames are those of the coroutines that await each other;
* `At` — the control and the frames implement a configuration of the machine of the program;
* `Inv` — so does the state, and the trace holds the calls made on the way;
* `Lowered` — what a step has to give.
-/

namespace TInvest
namespace Awaitable

open Lib.Interaction
open Lib.Transition
open Detail

section
variable {Req Resp V E : Type}

/-! ## The thread in control -/

/-- What moves the program on. -/
inductive Control (Req Resp V E : Type) where
  /-- The top of thread `t`. -/
  | hot (t : ℕ) (a : Activation Req Resp V E)
  /-- The completion of call `c`. -/
  | flying (c : ℕ)
  /-- `sync_wait`, which the semaphore lets go on. -/
  | signalled
  | collecting
  | returned

/-- The end of the stack of the thread in `sync_wait`. -/
def Control.main : Control Req Resp V E → List (Activation Req Resp V E)
  | .hot _ _ => [.acquire]
  | .flying _ => [.acquire]
  | .signalled => [.acquire]
  | .collecting => [.collect]
  | .returned => []

lemma Control.main_cases {ctl : Control Req Resp V E} {a : Activation Req Resp V E}
    {rest : List (Activation Req Resp V E)} (h : ctl.main = a :: rest) :
    a = .acquire ∨ a = .collect := by
  cases ctl <;> simp_all [Control.main]

/-- The stacks, from those without the activation in control. -/
def Control.threads (ctl : Control Req Resp V E) (cold : ℕ → List (Activation Req Resp V E)) :
    ℕ → List (Activation Req Resp V E) :=
  match ctl with
  | .hot t a => Function.update cold t (a :: cold t)
  | _ => cold

/-- The activation has nothing left to do. -/
def Returns : Activation Req Resp V E → Prop
  | .starting _ => True
  | .suspended => True
  | .resumed => True
  | _ => False

/-- The end of a stack: `sync_wait`, or `delete st` for a completed call. -/
def bottom (calls : ℕ → Call) (main : List (Activation Req Resp V E)) :
    ℕ → List (Activation Req Resp V E)
  | 0 => main
  | c + 1 =>
    match (calls c).point with
    | .completed => [.delete c]
    | _ => []

/-- Above their ends the stacks only return. -/
def Cold (calls : ℕ → Call) (main : List (Activation Req Resp V E))
    (cold : ℕ → List (Activation Req Resp V E)) : Prop :=
  ∀ u, ∃ l, (∀ a ∈ l, Returns a) ∧ cold u = l ++ bottom calls main u

lemma Cold.push {calls : ℕ → Call} {main : List (Activation Req Resp V E)}
    {cold : ℕ → List (Activation Req Resp V E)} (h : Cold calls main cold)
    (pre : List (Activation Req Resp V E)) (hpre : ∀ a ∈ pre, Returns a) (t : ℕ) :
    Cold calls main (Function.update cold t (pre ++ cold t)) := by
  intro u
  obtain ⟨l, hl, hcold⟩ := h u
  by_cases hu : u = t
  · subst hu
    refine ⟨pre ++ l, ?_, by rw [Function.update_self, hcold, List.append_assoc]⟩
    intro a ha
    rcases List.mem_append.mp ha with ha | ha
    · exact hpre a ha
    · exact hl a ha
  · exact ⟨l, hl, by rw [Function.update_of_ne hu, hcold]⟩

/-! ## The frames -/

/-- A continuation of a caller, with its frame. -/
abbrev Links (Req Resp V E : Type) := List (ℕ × (Except E V → Body Req Resp V E))

/-- The promise holds nothing yet. -/
def Frame.Unfinished (frame : Frame Req Resp V E) : Prop :=
  frame.value = none ∧ frame.exception = none

/-- The callers of frame `f`, innermost first, each of which awaits the one before. -/
inductive Linked (frames : ℕ → Frame Req Resp V E) : ℕ → Links Req Resp V E → Prop
  | root (h : (frames 0).continuation = none) : Linked frames 0 []
  | link {f p : ℕ} {k : Except E V → Body Req Resp V E} {links : Links Req Resp V E}
    (hlt : p < f) (hcont : (frames f).continuation = some p)
    (hpoint : (frames p).point = .task f k) (hopen : (frames p).Unfinished)
    (t : Linked frames p links) : Linked frames f ((p, k) :: links)

/-- The frames from the innermost to that of `sync_wait` are all there are. -/
structure Chain (s : State Req Resp V E) (f : ℕ) (links : Links Req Resp V E) : Prop where
  linked : Linked s.frames f links
  dead : ∀ g, g ≠ f → (∀ l ∈ links, l.1 ≠ g) → (s.frames g).point = .destroyed
  lt : f < s.nextFrame

lemma Linked.lt_of_mem {frames : ℕ → Frame Req Resp V E} {f : ℕ} {links : Links Req Resp V E}
    (h : Linked frames f links) : ∀ l ∈ links, l.1 < f := by
  induction h with
  | root => simp
  | link hlt _ _ _ _ ih =>
    intro l hl
    rcases List.mem_cons.mp hl with rfl | hl
    · exact hlt
    · exact (ih l hl).trans hlt

/-- The chain does not look at later frames. -/
lemma Linked.congr {frames frames' : ℕ → Frame Req Resp V E} {f : ℕ} {links : Links Req Resp V E}
    (h : Linked frames f links) (hsame : ∀ g ≤ f, frames' g = frames g) :
    Linked frames' f links := by
  induction h with
  | root h => exact .root (by rw [hsame 0 le_rfl]; exact h)
  | @link f p k links hlt hcont hpoint hopen t ih =>
    have hp := hsame p hlt.le
    refine .link hlt ?_ ?_ ?_ (ih fun g hg => hsame g (hg.trans hlt.le))
    · rw [hsame f le_rfl]
      exact hcont
    · rw [hp]
      exact hpoint
    · rw [hp]
      exact hopen

/-- Nor at the innermost frame, but for its continuation. -/
lemma Linked.update {frames : ℕ → Frame Req Resp V E} {f : ℕ} {links : Links Req Resp V E}
    (h : Linked frames f links) (frame : Frame Req Resp V E)
    (hcont : frame.continuation = (frames f).continuation) :
    Linked (Function.update frames f frame) f links := by
  cases h with
  | root h =>
    refine .root ?_
    rw [Function.update_self, hcont]
    exact h
  | @link _ p k links hlt hc hpoint hopen t =>
    have hp : Function.update frames f frame p = frames p := Function.update_of_ne hlt.ne _ _
    refine .link hlt ?_ ?_ ?_ (t.congr fun g hg => ?_)
    · rw [Function.update_self, hcont]
      exact hc
    · rw [hp]
      exact hpoint
    · rw [hp]
      exact hopen
    · exact Function.update_of_ne (by omega) _ _

/-- The innermost frame changes. -/
lemma Chain.update {s s' : State Req Resp V E} {f : ℕ} {links : Links Req Resp V E}
    (h : Chain s f links) {frame : Frame Req Resp V E}
    (hframes : s'.frames = Function.update s.frames f frame)
    (hcont : frame.continuation = (s.frames f).continuation)
    (hnext : s'.nextFrame = s.nextFrame) : Chain s' f links where
  linked := by
    rw [hframes]
    exact h.linked.update frame hcont
  dead g hg hlinks := by
    rw [hframes, Function.update_of_ne hg]
    exact h.dead g hg hlinks
  lt := by
    rw [hnext]
    exact h.lt

lemma Chain.congr {s s' : State Req Resp V E} {f : ℕ} {links : Links Req Resp V E}
    (h : Chain s f links) (hframes : s'.frames = s.frames) (hnext : s'.nextFrame = s.nextFrame) :
    Chain s' f links :=
  ⟨hframes ▸ h.linked, hframes ▸ h.dead, hnext ▸ h.lt⟩

/-- The chain, with the function of `sync_wait` still in the promise of its task. -/
structure Live (s : State Req Resp V E) (f : ℕ) (links : Links Req Resp V E) : Prop
    extends Chain s f links where
  armed : (s.frames 0).onComplete = true

lemma Live.update {s s' : State Req Resp V E} {f : ℕ} {links : Links Req Resp V E}
    (h : Live s f links) {frame : Frame Req Resp V E}
    (hframes : s'.frames = Function.update s.frames f frame)
    (hcont : frame.continuation = (s.frames f).continuation)
    (hcomplete : frame.onComplete = (s.frames f).onComplete)
    (hnext : s'.nextFrame = s.nextFrame) : Live s' f links where
  toChain := h.toChain.update hframes hcont hnext
  armed := by
    rw [hframes]
    by_cases hf : 0 = f
    · subst hf
      rw [Function.update_self, hcomplete]
      exact h.armed
    · rw [Function.update_of_ne hf]
      exact h.armed

/-- The innermost coroutine moves to another point. -/
lemma Live.setPoint {s s' : State Req Resp V E} {f : ℕ} {links : Links Req Resp V E}
    (h : Live s f links) (point : Point Req Resp V E)
    (hframes : s'.frames = Function.update s.frames f { s.frames f with point := point })
    (hnext : s'.nextFrame = s.nextFrame) : Live s' f links :=
  h.update hframes rfl rfl hnext

lemma Live.congr {s s' : State Req Resp V E} {f : ℕ} {links : Links Req Resp V E}
    (h : Live s f links) (hframes : s'.frames = s.frames) (hnext : s'.nextFrame = s.nextFrame) :
    Live s' f links :=
  ⟨h.toChain.congr hframes hnext, hframes ▸ h.armed⟩

/-! ## The calls and the trace -/

/-- How an awaited call went. -/
inductive Outcome (Resp : Type) where
  | denied
  | answered (answer : Answer Resp)

/-- What the coroutine gets. -/
def Outcome.result {Resp : Type} : Outcome Resp → Result Resp
  | .denied => .error limitExceeded
  | .answered answer => completion answer

/-- What can be seen of the call before the coroutine gets it. -/
def Outcome.opening {Resp : Type} (req : Req) : Outcome Resp → List (Event Req Resp)
  | .denied => [.denied req]
  | .answered _ => [.started req]

/-- What can be seen of a call that was awaited. -/
def exchangeEvents (x : Req × Outcome Resp) : List (Event Req Resp) :=
  x.2.opening x.1 ++ [.resumed x.2.result]

/-- The question of the program, and the answer it got. -/
def exchangeAnswer (x : Req × Outcome Resp) : Req × Result Resp := (x.1, x.2.result)

/-! ## The invariant -/

/-- The state implements a configuration of the machine of the program: `pending` is what can be
seen of the call it waits for, and the number bounds the steps to the next configuration. -/
inductive At (s : State Req Resp V E) : Control Req Resp V E → Conf Req (Result Resp) V E →
    List (Event Req Resp) → ℕ → Prop
  | start {t f : ℕ} {links : Links Req Resp V E} {body : Body Req Resp V E} (h : Live s f links)
    (hopen : (s.frames f).Unfinished) (hp : (s.frames f).point = .initial body) :
    At s (.hot t (.resume f)) ⟨.eval body, links.map Prod.snd⟩ [] 2
  | wake {t f : ℕ} {links : Links Req Resp V E} {req : Req}
    {k : Result Resp → Body Req Resp V E} {result : Result Resp} (h : Live s f links)
    (hopen : (s.frames f).Unfinished) (hp : (s.frames f).point = .unary req k (some result)) :
    At s (.hot t (.resume f)) ⟨.eval (k result), links.map Prod.snd⟩ [] 2
  | run {t f : ℕ} {links : Links Req Resp V E} {body : Body Req Resp V E} (h : Live s f links)
    (hopen : (s.frames f).Unfinished) (hp : (s.frames f).point = .running) :
    At s (.hot t (.run f body)) ⟨.eval body, links.map Prod.snd⟩ [] 1
  | suspend {t f : ℕ} {links : Links Req Resp V E} {req : Req}
    {k : Result Resp → Body Req Resp V E} (h : Live s f links)
    (hopen : (s.frames f).Unfinished) (hp : (s.frames f).point = .unary req k none) :
    At s (.hot t (.suspend f req)) ⟨.asking req k, links.map Prod.snd⟩ [] 4
  | flying {c f : ℕ} {links : Links Req Resp V E} {req : Req}
    {k : Result Resp → Body Req Resp V E} (h : Live s f links)
    (hopen : (s.frames f).Unfinished) (hp : (s.frames f).point = .unary req k none)
    (hc : s.calls c = ⟨f, .inFlight⟩) :
    At s (.flying c) ⟨.asking req k, links.map Prod.snd⟩ [.started req] 3
  | deliver {c f : ℕ} {links : Links Req Resp V E} {req : Req}
    {k : Result Resp → Body Req Resp V E} {answer : Answer Resp} (h : Live s f links)
    (hopen : (s.frames f).Unfinished) (hp : (s.frames f).point = .unary req k none)
    (hc : s.calls c = ⟨f, .completed⟩) :
    At s (.hot (c + 1) (.deliver c answer)) ⟨.asking req k, links.map Prod.snd⟩ [.started req] 2
  | callback {t f : ℕ} {links : Links Req Resp V E} {req : Req}
    {k : Result Resp → Body Req Resp V E} (o : Outcome Resp) (h : Live s f links)
    (hopen : (s.frames f).Unfinished) (hp : (s.frames f).point = .unary req k none) :
    At s (.hot t (.callback f o.result)) ⟨.asking req k, links.map Prod.snd⟩ (o.opening req) 1
  | final {t f : ℕ} {links : Links Req Resp V E} {x : Except E V} (h : Live s f links)
    (hp : (s.frames f).point = .final) (hx : (s.frames f).outcome = some x) :
    At s (.hot t (.final f)) ⟨.value x, links.map Prod.snd⟩ [] 6
  | join {t f p : ℕ} {k : Except E V → Body Req Resp V E} {links : Links Req Resp V E}
    {x : Except E V} (h : Live s f ((p, k) :: links)) (hp : (s.frames f).point = .final)
    (hx : (s.frames f).outcome = some x) :
    At s (.hot t (.resume p)) ⟨.value x, k :: links.map Prod.snd⟩ [] 5
  | release {t : ℕ} {x : Except E V} (h : Chain s 0 []) (hp : (s.frames 0).point = .final)
    (hx : (s.frames 0).outcome = some x) : At s (.hot t .release) ⟨.value x, []⟩ [] 4
  | signalled {x : Except E V} (h : Chain s 0 []) (hp : (s.frames 0).point = .final)
    (hx : (s.frames 0).outcome = some x) : At s .signalled ⟨.value x, []⟩ [] 3
  | collecting {x : Except E V} (h : Chain s 0 []) (hp : (s.frames 0).point = .final)
    (hx : (s.frames 0).outcome = some x) : At s .collecting ⟨.value x, []⟩ [] 2
  | returned {x : Except E V} (h : ∀ g, (s.frames g).point = .destroyed)
    (hx : s.returned = some x) : At s .returned ⟨.value x, []⟩ [] 1

/-- The threads and the calls around the control. -/
structure Board (s : State Req Resp V E) (ctl : Control Req Resp V E)
    (cold : ℕ → List (Activation Req Resp V E)) : Prop where
  threads : s.threads = ctl.threads cold
  quiet : Cold s.calls ctl.main cold
  idle : ∀ u, s.nextCall < u → cold u = []
  hot_le : ∀ t a, ctl = .hot t a → t ≤ s.nextCall
  inFlight : ∀ c, (s.calls c).point = .inFlight ↔ ctl = .flying c
  fresh : ∀ c, s.nextCall ≤ c → (s.calls c).point = .freed
  semaphore : s.semaphore = true ↔ ctl = .signalled
  returned : ctl ≠ .returned → s.returned = none
  fault : s.fault = false

/-- The state implements the configuration, which the program has reached with the calls of the
log. -/
structure Inv (body : Body Req Resp V E) (s : State Req Resp V E) (ctl : Control Req Resp V E)
    (cfg : Conf Req (Result Resp) V E) (rank : ℕ) (log : List (Req × Outcome Resp))
    (cold : ℕ → List (Activation Req Resp V E)) : Prop where
  board : Board s ctl cold
  here : ∃ pending, At s ctl cfg pending rank ∧ s.trace = log.flatMap exchangeEvents ++ pending
  steps : Steps ⟨.eval body, []⟩ (log.map exchangeAnswer) cfg

/-- The number of activations that only return. -/
def load (s : State Req Resp V E) (cold : ℕ → List (Activation Req Resp V E)) : ℕ :=
  ∑ u ∈ Finset.range (s.nextCall + 1), (cold u).length

/-- The invariant holds with a later configuration, or the same one with less to do. -/
def Lowered (body : Body Req Resp V E) (s : State Req Resp V E)
    (cfg : Conf Req (Result Resp) V E) (rank n : ℕ) : Prop :=
  ∃ ctl cfg' rank' log cold, Inv body s ctl cfg' rank' log cold ∧
    (Next cfg' cfg ∨ cfg' = cfg ∧ (rank' < rank ∨ rank' = rank ∧ load s cold < n))

section
variable {body : Body Req Resp V E} {s s' : State Req Resp V E} {ctl ctl' : Control Req Resp V E}
  {cfg cfg' : Conf Req (Result Resp) V E} {rank rank' : ℕ} {log : List (Req × Outcome Resp)}
  {cold cold' : ℕ → List (Activation Req Resp V E)} {pending : List (Event Req Resp)} {n : ℕ}

/-- The configuration stays. -/
lemma Inv.stay (h : Inv body s ctl cfg rank log cold) (hboard : Board s' ctl' cold')
    (hat : At s' ctl' cfg pending rank')
    (htrace : s'.trace = log.flatMap exchangeEvents ++ pending) (hlt : rank' < rank) :
    Lowered body s' cfg rank n :=
  ⟨ctl', cfg, rank', log, cold', ⟨hboard, ⟨pending, hat, htrace⟩, h.steps⟩,
    Or.inr ⟨rfl, Or.inl hlt⟩⟩

/-- The machine makes a step of its own. -/
lemma Inv.move (h : Inv body s ctl cfg rank log cold) (hboard : Board s' ctl' cold')
    (hat : At s' ctl' cfg' pending rank')
    (htrace : s'.trace = log.flatMap exchangeEvents ++ pending) (hstep : Step cfg [] cfg') :
    Lowered body s' cfg rank n := by
  refine ⟨ctl', cfg', rank', log, cold', ⟨hboard, ⟨pending, hat, htrace⟩, ?_⟩,
    Or.inl ⟨[], hstep⟩⟩
  have hsteps := h.steps.concat hstep
  rwa [List.append_nil] at hsteps

/-- The activation in control goes on to another one, with `pre` below it. -/
lemma Board.hot {t : ℕ} {a b : Activation Req Resp V E} (h : Board s (.hot t a) cold)
    (pre : List (Activation Req Resp V E)) (hpre : ∀ a ∈ pre, Returns a)
    (hthreads : s'.threads = Function.update s.threads t (b :: (pre ++ cold t)))
    (hcalls : s'.calls = s.calls) (hnext : s'.nextCall = s.nextCall)
    (hsemaphore : s'.semaphore = s.semaphore) (hreturned : s'.returned = s.returned)
    (hfault : s'.fault = s.fault) :
    Board s' (.hot t b) (Function.update cold t (pre ++ cold t)) where
  threads := by
    rw [hthreads, h.threads]
    simp only [Control.threads, Function.update_self, Function.update_idem]
  quiet := by
    rw [hcalls]
    exact h.quiet.push pre hpre t
  idle u hu := by
    have ht := h.hot_le t a rfl
    rw [hnext] at hu
    rw [Function.update_of_ne (by omega)]
    exact h.idle u hu
  hot_le u c hc := by
    cases hc
    rw [hnext]
    exact h.hot_le t a rfl
  inFlight c := by
    rw [hcalls, h.inFlight]
    simp
  fresh := by
    rw [hcalls, hnext]
    exact h.fresh
  semaphore := by
    rw [hsemaphore, h.semaphore]
    simp
  returned _ := by
    rw [hreturned]
    exact h.returned (by simp)
  fault := hfault.trans h.fault

end

end

end Awaitable
end TInvest
