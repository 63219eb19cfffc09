import TInvest.Call.AwaitableInvariant

/-!
# Every step goes on

One lemma for each thing a thread can do: it keeps the invariant, and lowers the configuration or
what is left to do in it (`Inv.step`).
-/

namespace TInvest
namespace Awaitable

open Lib.Interaction
open Lib.Transition
open Detail

section
variable {Req Resp V E : Type}

/-! ## Steps of the thread in control -/

section
variable {body : Body Req Resp V E} {s s' : State Req Resp V E} {t : ℕ}
  {cfg : Conf Req (Result Resp) V E} {rank : ℕ} {log : List (Req × Outcome Resp)}
  {cold : ℕ → List (Activation Req Resp V E)}

/-- A caller goes on when its task is at its end: the task is destroyed. -/
lemma Live.back {s s' : State Req Resp V E} {f p : ℕ} {k : Except E V → Body Req Resp V E}
    {links : Links Req Resp V E} (h : Live s f ((p, k) :: links)) (point : Point Req Resp V E)
    (hframes : s'.frames = Function.update (Function.update s.frames p
      { s.frames p with point := point }) f { s.frames f with point := .destroyed })
    (hnext : s'.nextFrame = s.nextFrame) : Live s' p links where
  linked := by
    cases h.linked with
    | link hlt _ _ _ t =>
      rw [hframes]
      have hp := t.update { s.frames p with point := point } rfl
      exact hp.congr fun g hg => Function.update_of_ne (by omega) _ _
  dead g hg hlinks := by
    rw [hframes]
    by_cases hgf : g = f
    · rw [hgf, Function.update_self]
    · rw [Function.update_of_ne hgf, Function.update_of_ne hg]
      refine h.dead g hgf fun l hl => ?_
      rcases List.mem_cons.mp hl with rfl | hl
      · exact fun hp => hg hp.symm
      · exact hlinks l hl
  lt := by
    have hlt := h.linked.lt_of_mem (p, k) (List.mem_cons_self ..)
    rw [hnext]
    exact hlt.trans h.lt
  armed := by
    have hlt := h.linked.lt_of_mem (p, k) (List.mem_cons_self ..)
    rw [hframes, Function.update_of_ne (by omega)]
    by_cases hp : 0 = p
    · subst hp
      rw [Function.update_self]
      exact h.armed
    · rw [Function.update_of_ne hp]
      exact h.armed

/-- A coroutine that is resumed goes on with its code. -/
lemma Inv.resume {f : ℕ} (h : Inv body s (.hot t (.resume f)) cfg rank log cold) (n : ℕ) :
    Lowered body (resume t (cold t) f s) cfg rank n := by
  obtain ⟨pending, hat, htrace⟩ := h.here
  cases hat with
  | start hl hopen hp =>
    simp only [Awaitable.resume, hp]
    refine h.stay (h.board.hot [] (by simp) rfl rfl rfl rfl rfl rfl)
      (.run (hl.setPoint .running (by rfl) (by rfl)) ?_ ?_) htrace (by norm_num)
    · simpa [Frame.Unfinished, State.setThread, State.setPoint, State.setFrame] using hopen
    · simp [State.setThread, State.setPoint, State.setFrame]
  | wake hl hopen hp =>
    simp only [Awaitable.resume, hp]
    refine h.stay (h.board.hot [] (by simp) rfl rfl rfl rfl rfl rfl)
      (.run (hl.setPoint .running (by rfl) (by rfl)) ?_ ?_) htrace (by norm_num)
    · simpa [Frame.Unfinished, State.setThread, State.setPoint, State.setFrame] using hopen
    · simp [State.setThread, State.setPoint, State.setFrame]
  | @join _ child _ k links x hl hp hx =>
    -- the task is at its end, and its caller waits for it
    obtain ⟨hlt, hpoint, hopen⟩ : f < child ∧ (s.frames f).point = .task child k ∧
        (s.frames f).Unfinished := by
      cases hl.linked with
      | link hlt _ hpoint hopen _ => exact ⟨hlt, hpoint, hopen⟩
    have hne : f ≠ child := hlt.ne
    simp only [Awaitable.resume, hpoint, hp, hx]
    have hframes : (s.setPoint f .running).frames child = s.frames child :=
      Function.update_of_ne hne.symm _ _
    refine h.move (h.board.hot [] (by simp) rfl rfl rfl rfl rfl rfl)
      (.run (hl.back .running ?_ (by rfl)) ?_ ?_) htrace (.back x k _)
    · simp [State.setThread, State.setPoint, State.setFrame, Function.update_of_ne hne.symm]
    · simpa [Frame.Unfinished, State.setThread, State.setPoint, State.setFrame,
        Function.update_of_ne hne] using hopen
    · simp [State.setThread, State.setPoint, State.setFrame, Function.update_of_ne hne]

/-- An awaited task is the innermost coroutine. -/
lemma Live.call {s s' : State Req Resp V E} {f : ℕ} {links : Links Req Resp V E}
    (h : Live s f links) (hopen : (s.frames f).Unfinished) {k : Except E V → Body Req Resp V E}
    {child : Frame Req Resp V E} (hframes : s'.frames = Function.update (Function.update s.frames f
      { s.frames f with point := .task s.nextFrame k }) s.nextFrame child)
    (hchild : child.continuation = some f)
    (hnext : s'.nextFrame = s.nextFrame + 1) : Live s' s.nextFrame ((f, k) :: links) where
  linked := by
    have hlt := h.lt
    have hf : s'.frames f = { s.frames f with point := .task s.nextFrame k } := by
      rw [hframes, Function.update_of_ne hlt.ne, Function.update_self]
    refine .link hlt ?_ ?_ ?_ ?_
    · rw [hframes, Function.update_self]
      exact hchild
    · rw [hf]
    · rw [hf]
      exact hopen
    · have hlinked := h.linked.update { s.frames f with point := .task s.nextFrame k } rfl
      rw [hframes]
      exact hlinked.congr fun g hg => Function.update_of_ne (by omega) _ _
  dead g hg hlinks := by
    have hgf : g ≠ f := fun hgf => hlinks (f, k) (List.mem_cons_self ..) hgf.symm
    rw [hframes, Function.update_of_ne hg, Function.update_of_ne hgf]
    exact h.dead g hgf fun l hl => hlinks l (List.mem_cons_of_mem _ hl)
  lt := by
    rw [hnext]
    exact Nat.lt_succ_self _
  armed := by
    have hlt := h.lt
    rw [hframes, Function.update_of_ne (by omega)]
    by_cases hf : 0 = f
    · subst hf
      rw [Function.update_self]
      exact h.armed
    · rw [Function.update_of_ne hf]
      exact h.armed

/-- The code of a coroutine runs to its next suspension. -/
lemma Inv.runBody {f : ℕ} {p : Body Req Resp V E}
    (h : Inv body s (.hot t (.run f p)) cfg rank log cold) (n : ℕ) :
    Lowered body (runBody t (cold t) f p s) cfg rank n := by
  obtain ⟨pending, hat, htrace⟩ := h.here
  cases hat with
  | run hl hopen hp =>
    simp only [Awaitable.runBody, hp]
    cases p with
    | ret v =>
      refine h.move (h.board.hot [] (by simp) rfl rfl rfl rfl rfl rfl)
        (.final (x := .ok v) (hl.update (by rfl) (by rfl) (by rfl) (by rfl)) ?_ ?_) htrace
        (.ret v _)
      · simp [State.setThread, State.setFrame]
      · simp [State.setThread, State.setFrame, Frame.outcome, hopen.2]
    | throw e =>
      refine h.move (h.board.hot [] (by simp) rfl rfl rfl rfl rfl rfl)
        (.final (x := .error e) (hl.update (by rfl) (by rfl) (by rfl) (by rfl)) ?_ ?_) htrace
        (.throw e _)
      · simp [State.setThread, State.setFrame]
      · simp [State.setThread, State.setFrame, Frame.outcome]
    | ask req k =>
      refine h.move (h.board.hot [] (by simp) rfl rfl rfl rfl rfl rfl)
        (.suspend (hl.setPoint (.unary req k none) (by rfl) (by rfl)) ?_ ?_) htrace (.ask req k _)
      · simpa [Frame.Unfinished, State.setThread, State.setPoint, State.setFrame] using hopen
      · simp [State.setThread, State.setPoint, State.setFrame]
    | call p k =>
      refine h.move (h.board.hot [] (by simp) rfl rfl rfl rfl rfl rfl)
        (.start (hl.call hopen (k := k) (by rfl) (by rfl) (by rfl)) ?_ ?_) htrace (.call p k _)
      · simp [Frame.Unfinished, State.setThread, State.setPoint, State.setFrame]
      · simp [State.setThread, State.setPoint, State.setFrame]

/-- The callback gives its result to the coroutine that waits for it. -/
lemma Inv.callback {f : ℕ} {result : Result Resp}
    (h : Inv body s (.hot t (.callback f result)) cfg rank log cold) (n : ℕ) :
    Lowered body (callback t (cold t) f result s) cfg rank n := by
  obtain ⟨pending, hat, htrace⟩ := h.here
  cases hat with
  | @callback _ _ links req k o hl hopen hp =>
    simp only [Awaitable.callback, hp]
    have hstep : Step (⟨.asking req k, links.map Prod.snd⟩ : Conf Req (Result Resp) V E)
        [(req, o.result)] ⟨.eval (k o.result), links.map Prod.snd⟩ := .answer req k o.result _
    have hp' : ((s.setPoint f (.unary req k (some o.result))).frames f).point
        = .unary req k (some o.result) := by
      simp [State.setPoint, State.setFrame]
    refine ⟨_, _, 2, log ++ [(req, o)], _,
      ⟨h.board.hot [.resumed] (by simp [Returns]) (by rfl) rfl rfl rfl rfl rfl,
        ⟨[], .wake (hl.setPoint (.unary req k (some o.result)) (by rfl) (by rfl)) ?_ hp', ?_⟩,
        ?_⟩,
      Or.inl ⟨_, hstep⟩⟩
    · simpa [Frame.Unfinished, State.setThread, State.setPoint, State.setFrame] using hopen
    · show s.trace ++ [Event.resumed o.result] = _
      rw [htrace]
      simp [exchangeEvents]
    · rw [List.map_append]
      exact h.steps.concat hstep

/-- The completion of a call calls its callback. -/
lemma Inv.deliver {c : ℕ} {answer : Answer Resp}
    (h : Inv body s (.hot t (.deliver c answer)) cfg rank log cold) (n : ℕ) :
    Lowered body (deliver t (cold t) c answer s) cfg rank n := by
  obtain ⟨pending, hat, htrace⟩ := h.here
  cases hat with
  | deliver hl hopen hp hc =>
    simp only [Awaitable.deliver, hc]
    exact h.stay (h.board.hot [] (by simp) rfl rfl rfl rfl rfl rfl)
      (.callback (.answered answer) (hl.congr (by rfl) (by rfl)) hopen hp) htrace (by norm_num)

/-- A coroutine at its end gives control to its caller, or releases `sync_wait`. -/
lemma Inv.finalSuspend {f : ℕ} (h : Inv body s (.hot t (.final f)) cfg rank log cold) (n : ℕ) :
    Lowered body (finalSuspend t (cold t) f s) cfg rank n := by
  obtain ⟨pending, hat, htrace⟩ := h.here
  cases hat with
  | @final _ _ links x hl hp hx =>
    simp only [Awaitable.finalSuspend, hp]
    have hlinked := hl.linked
    cases hlinked with
    | root hcont =>
      simp only [hcont, hl.armed, if_true]
      refine h.stay (h.board.hot [] (by simp) rfl rfl rfl rfl rfl rfl)
        (.release (hl.toChain.update (by rfl) (by exact hcont.symm) (by rfl)) ?_ ?_) htrace
        (by norm_num)
      · simp [State.setThread, State.setFrame]
      · simpa [State.setThread, State.setFrame, Frame.outcome] using hx
    | link _ hcont _ _ _ =>
      simp only [hcont]
      exact h.stay (h.board.hot [] (by simp) rfl rfl rfl rfl rfl rfl)
        (.join (hl.congr (by rfl) (by rfl)) hp hx) htrace (by norm_num)

/-- The semaphore lets `sync_wait` go on. -/
lemma Inv.release (h : Inv body s (.hot t .release) cfg rank log cold) (n : ℕ) :
    Lowered body { s.setThread t (cold t) with semaphore := true } cfg rank n := by
  obtain ⟨pending, hat, htrace⟩ := h.here
  have hboard := h.board
  cases hat with
  | release hl hp hx =>
    refine h.stay (show Board _ .signalled cold from ?_)
      (.signalled (hl.congr (by rfl) (by rfl)) hp hx) htrace (by norm_num)
    refine ⟨?_, hboard.quiet, hboard.idle, by simp, ?_, hboard.fresh, by simp, fun _ => ?_,
      hboard.fault⟩
    · show Function.update s.threads t (cold t) = cold
      rw [hboard.threads]
      simp [Control.threads]
    · intro c
      show (s.calls c).point = .inFlight ↔ _
      rw [hboard.inFlight]
      simp
    · exact hboard.returned (by simp)

/-- The ends of the stacks depend on the completed calls only. -/
lemma bottom_congr {calls calls' : ℕ → Call} {main : List (Activation Req Resp V E)} {u : ℕ}
    (h : ∀ c, u = c + 1 → ((calls' c).point = .completed ↔ (calls c).point = .completed)) :
    bottom calls' main u = bottom calls main u := by
  cases u with
  | zero => rfl
  | succ c =>
    have hc := h c rfl
    cases hp : (calls c).point <;> cases hp' : (calls' c).point <;> simp_all [bottom]

/-- The limiter turns a call away, or the stub is invoked. -/
lemma Inv.tryAcquire {f : ℕ} {req : Req} {admitted : Bool}
    (h : Inv body s (.hot t (.suspend f req)) cfg rank log cold)
    (hs : tryAcquire t admitted s = some s') (n : ℕ) : Lowered body s' cfg rank n := by
  obtain ⟨pending, hat, htrace⟩ := h.here
  have hboard := h.board
  have htop : s.threads t = .suspend f req :: cold t := by
    rw [hboard.threads, Control.threads, Function.update_self]
  simp only [Awaitable.tryAcquire, htop] at hs
  cases hat with
  | suspend hl hopen hp =>
    rw [List.append_nil] at htrace
    cases admitted with
    | false =>
      simp only [Bool.false_eq_true, if_false, Option.some.injEq] at hs
      subst hs
      refine h.stay (h.board.hot [.suspended] (by simp [Returns]) rfl rfl rfl rfl rfl rfl)
        (.callback .denied (hl.congr (by rfl) (by rfl)) hopen hp) ?_ (by norm_num)
      show s.trace ++ [Event.denied req] = _
      rw [htrace]
      rfl
    | true =>
      simp only [if_true, Option.some.injEq] at hs
      subst hs
      have ht := hboard.hot_le t _ rfl
      refine h.stay (show Board _ (.flying s.nextCall)
          (Function.update cold t ([.starting s.nextCall, .suspended] ++ cold t)) from ?_)
        (.flying (hl.congr (by rfl) (by rfl)) hopen hp (Function.update_self ..)) ?_ (by norm_num)
      · refine ⟨?_, ?_, fun u hu => ?_, by simp, fun c => ?_, fun c hc => ?_, ?_, fun _ => ?_,
          hboard.fault⟩
        · show Function.update s.threads t _ = _
          rw [hboard.threads]
          simp [Control.threads]
        · -- the new call is not completed
          intro u
          obtain ⟨l, hl', hcold⟩ := hboard.quiet.push
            [.starting s.nextCall, .suspended] (by simp [Returns]) t u
          refine ⟨l, hl', ?_⟩
          rw [hcold]
          congr 1
          refine (bottom_congr fun c _ => ?_).symm
          by_cases hc : c = s.nextCall
          · subst hc
            simp [hboard.fresh _ le_rfl]
          · simp [Function.update_of_ne hc]
        · have hu' : s.nextCall + 1 < u := hu
          rw [Function.update_of_ne (by omega)]
          exact hboard.idle u (by omega)
        · by_cases hc : c = s.nextCall
          · subst hc
            simp
          · have hold := hboard.inFlight c
            simp only [Function.update_of_ne hc, hold]
            simp [Ne.symm hc]
        · have hc' : s.nextCall + 1 ≤ c := hc
          have hne : c ≠ s.nextCall := by omega
          simp only [Function.update_of_ne hne]
          exact hboard.fresh c (by omega)
        · show s.semaphore = true ↔ _
          rw [hboard.semaphore]
          simp
        · exact hboard.returned (by simp)
      · show s.trace ++ [Event.started req] = _
        rw [htrace]

/-- gRPC completes the call that the program waits for. -/
lemma Inv.complete {ctl : Control Req Resp V E} {c : ℕ} {answer : Answer Resp}
    (h : Inv body s ctl cfg rank log cold) (hs : complete c answer s = some s') (n : ℕ) :
    Lowered body s' cfg rank n := by
  have hboard := h.board
  rw [Awaitable.complete] at hs
  split at hs
  · next hpoint =>
    simp only [Option.some.injEq] at hs
    subst hs
    have hctl := (hboard.inFlight c).mp hpoint
    subst hctl
    obtain ⟨pending, hat, htrace⟩ := h.here
    have hlt : c < s.nextCall := by
      by_contra hge
      rw [hboard.fresh c (not_lt.mp hge)] at hpoint
      cases hpoint
    cases hat with
    | @flying _ f links req k hl hopen hp hc =>
      refine h.stay (show Board _ (.hot (c + 1) (.deliver c answer))
          (Function.update cold (c + 1) [.delete c]) from ?_)
        (.deliver (hl.congr (by rfl) (by rfl)) hopen hp ?_) htrace (by norm_num)
      · refine ⟨?_, fun u => ?_, fun u hu => ?_, fun u a ha => ?_, fun c' => ?_, fun c' hc' => ?_,
          ?_, fun _ => ?_, hboard.fault⟩
        · show Function.update s.threads (c + 1) _ = _
          rw [hboard.threads]
          simp [Control.threads]
        · by_cases hu : u = c + 1
          · subst hu
            exact ⟨[], by simp, by simp [bottom]⟩
          · obtain ⟨l, hl', hcold⟩ := hboard.quiet u
            refine ⟨l, hl', ?_⟩
            rw [Function.update_of_ne hu, hcold]
            congr 1
            refine (bottom_congr fun c' hc' => ?_).symm
            have hne : c' ≠ c := by omega
            simp [Function.update_of_ne hne]
        · have hu' : s.nextCall < u := hu
          rw [Function.update_of_ne (by omega)]
          exact hboard.idle u hu'
        · cases ha
          exact hlt
        · by_cases hne : c' = c
          · subst hne
            simp
          · have hold := hboard.inFlight c'
            simp only [Function.update_of_ne hne, hold]
            simp [Ne.symm hne]
        · have hc'' : s.nextCall ≤ c' := hc'
          have hne : c' ≠ c := by omega
          simp only [Function.update_of_ne hne]
          exact hboard.fresh c' hc''
        · show s.semaphore = true ↔ _
          rw [hboard.semaphore]
          simp
        · exact hboard.returned (by simp)
      · simp [hc]
  · cases hs

end

/-! ## Steps of the other threads -/

section
variable {body : Body Req Resp V E} {s s' : State Req Resp V E} {ctl : Control Req Resp V E}
  {cfg : Conf Req (Result Resp) V E} {rank : ℕ} {log : List (Req × Outcome Resp)}
  {cold : ℕ → List (Activation Req Resp V E)} {pending : List (Event Req Resp)}

/-- Below the control a stack returns, ends a completed call, or is at the end of `sync_wait`. -/
lemma Cold.top {calls : ℕ → Call} {main rest : List (Activation Req Resp V E)} {u : ℕ}
    {a : Activation Req Resp V E} (h : Cold calls main cold) (hu : cold u = a :: rest) :
    (Returns a ∧ Cold calls main (Function.update cold u rest)) ∨
    (∃ c, u = c + 1 ∧ a = .delete c ∧ rest = [] ∧ (calls c).point = .completed) ∨
    u = 0 ∧ main = a :: rest := by
  obtain ⟨l, hl, hcold⟩ := h u
  rw [hu] at hcold
  cases l with
  | nil =>
    right
    rw [List.nil_append] at hcold
    cases u with
    | zero => exact Or.inr ⟨rfl, hcold.symm⟩
    | succ c =>
      left
      rw [bottom] at hcold
      split at hcold
      · next hc =>
        rw [List.cons.injEq] at hcold
        exact ⟨c, rfl, hcold.1, hcold.2, hc⟩
      · exact absurd hcold (by simp)
  | cons b l =>
    left
    rw [List.cons_append, List.cons.injEq] at hcold
    obtain ⟨rfl, hrest⟩ := hcold
    refine ⟨hl a (List.mem_cons_self ..), fun v => ?_⟩
    by_cases hv : v = u
    · subst hv
      exact ⟨l, fun b hb => hl b (List.mem_cons_of_mem a hb), by rw [Function.update_self, hrest]⟩
    · rw [Function.update_of_ne hv]
      exact h v

/-- The stacks of the other threads do not depend on the control. -/
lemma Control.threads_update {u : ℕ} (hu : ∀ a, ctl ≠ .hot u a)
    (stack : List (Activation Req Resp V E)) :
    ctl.threads (Function.update cold u stack) = Function.update (ctl.threads cold) u stack := by
  cases ctl with
  | hot t a =>
    have ht : t ≠ u := by
      rintro rfl
      exact hu a rfl
    simp only [Control.threads, Function.update_of_ne ht]
    exact Function.update_comm ht.symm _ _ _
  | flying c => rfl
  | signalled => rfl
  | collecting => rfl
  | returned => rfl

lemma Control.threads_of_ne {u : ℕ} (hu : ∀ a, ctl ≠ .hot u a) : ctl.threads cold u = cold u := by
  cases ctl with
  | hot t a =>
    have ht : u ≠ t := by
      rintro rfl
      exact hu a rfl
    exact Function.update_of_ne ht _ _
  | flying c => rfl
  | signalled => rfl
  | collecting => rfl
  | returned => rfl

/-- What the control looks at. -/
lemma At.congr (h : At s ctl cfg pending rank) (hframes : s'.frames = s.frames)
    (hnext : s'.nextFrame = s.nextFrame) (hreturned : s'.returned = s.returned)
    (hcalls : ∀ c, ctl = .flying c ∨ (∃ a, ctl = .hot (c + 1) a) → s'.calls c = s.calls c) :
    At s' ctl cfg pending rank := by
  cases h with
  | start h hopen hp =>
    exact .start (h.congr hframes hnext) (hframes ▸ hopen) (hframes ▸ hp)
  | wake h hopen hp => exact .wake (h.congr hframes hnext) (hframes ▸ hopen) (hframes ▸ hp)
  | run h hopen hp => exact .run (h.congr hframes hnext) (hframes ▸ hopen) (hframes ▸ hp)
  | suspend h hopen hp =>
    exact .suspend (h.congr hframes hnext) (hframes ▸ hopen) (hframes ▸ hp)
  | flying h hopen hp hc =>
    refine .flying (h.congr hframes hnext) (hframes ▸ hopen) (hframes ▸ hp) ?_
    rw [hcalls _ (Or.inl rfl)]
    exact hc
  | deliver h hopen hp hc =>
    refine .deliver (h.congr hframes hnext) (hframes ▸ hopen) (hframes ▸ hp) ?_
    rw [hcalls _ (Or.inr ⟨_, rfl⟩)]
    exact hc
  | callback o h hopen hp =>
    exact .callback o (h.congr hframes hnext) (hframes ▸ hopen) (hframes ▸ hp)
  | final h hp hx => exact .final (h.congr hframes hnext) (hframes ▸ hp) (hframes ▸ hx)
  | join h hp hx => exact .join (h.congr hframes hnext) (hframes ▸ hp) (hframes ▸ hx)
  | release h hp hx => exact .release (h.congr hframes hnext) (hframes ▸ hp) (hframes ▸ hx)
  | signalled h hp hx => exact .signalled (h.congr hframes hnext) (hframes ▸ hp) (hframes ▸ hx)
  | collecting h hp hx => exact .collecting (h.congr hframes hnext) (hframes ▸ hp) (hframes ▸ hx)
  | returned h hx =>
    refine .returned (fun g => ?_) (hreturned.trans hx)
    rw [hframes]
    exact h g

/-- A shorter stack is a smaller load. -/
lemma load_lt {u : ℕ} {a : Activation Req Resp V E} {rest : List (Activation Req Resp V E)}
    (hnext : s'.nextCall = s.nextCall) (hidle : ∀ u, s.nextCall < u → cold u = [])
    (hu : cold u = a :: rest) : load s' (Function.update cold u rest) < load s cold := by
  have hmem : u ∈ Finset.range (s.nextCall + 1) := by
    rw [Finset.mem_range]
    by_contra hge
    rw [hidle u (by omega)] at hu
    cases hu
  rw [load, load, hnext]
  refine Finset.sum_lt_sum (fun v _ => ?_) ⟨u, hmem, ?_⟩
  · by_cases hv : v = u
    · subst hv
      rw [Function.update_self, hu]
      simp
    · rw [Function.update_of_ne hv]
  · rw [Function.update_self, hu]
    simp

/-- Another thread returns from a function, or ends a completed call. -/
lemma Inv.shorten {u : ℕ} {a : Activation Req Resp V E} {rest : List (Activation Req Resp V E)}
    (h : Inv body s ctl cfg rank log cold) (hu : ∀ a, ctl ≠ .hot u a) (htop : cold u = a :: rest)
    (hthreads : s'.threads = Function.update s.threads u rest)
    (hframes : s'.frames = s.frames) (hnextFrame : s'.nextFrame = s.nextFrame)
    (hquiet : Cold s'.calls ctl.main (Function.update cold u rest))
    (hcalls : ∀ c, s'.calls c = s.calls c ∨
      u = c + 1 ∧ (s.calls c).point = .completed ∧ (s'.calls c).point = .freed)
    (hnext : s'.nextCall = s.nextCall) (hsemaphore : s'.semaphore = s.semaphore)
    (hreturned : s'.returned = s.returned) (hfault : s'.fault = s.fault)
    (htrace : s'.trace = s.trace) : Lowered body s' cfg rank (load s cold) := by
  have hboard := h.board
  obtain ⟨pending, hat, hpending⟩ := h.here
  refine ⟨ctl, cfg, rank, log, Function.update cold u rest, ⟨?_, ⟨pending, ?_, ?_⟩, h.steps⟩,
    Or.inr ⟨rfl, Or.inr ⟨rfl, load_lt hnext hboard.idle htop⟩⟩⟩
  · refine ⟨?_, hquiet, fun v hv => ?_, fun v b hb => ?_, fun c => ?_, fun c hc => ?_, ?_,
      fun hne => ?_, ?_⟩
    · rw [hthreads, hboard.threads, Control.threads_update hu]
    · by_cases hvu : v = u
      · subst hvu
        rw [hnext] at hv
        rw [hboard.idle _ hv] at htop
        cases htop
      · rw [Function.update_of_ne hvu]
        exact hboard.idle v (by omega)
    · rw [hnext]
      exact hboard.hot_le v b hb
    · rw [← hboard.inFlight]
      rcases hcalls c with hc | ⟨-, hold, hnew⟩
      · rw [hc]
      · rw [hold, hnew]
        simp
    · rcases hcalls c with hc' | ⟨-, -, hnew⟩
      · rw [hc']
        exact hboard.fresh c (by omega)
      · exact hnew
    · rw [hsemaphore, hboard.semaphore]
    · rw [hreturned]
      exact hboard.returned hne
    · exact hfault.trans hboard.fault
  · refine hat.congr hframes hnextFrame hreturned fun c hc => ?_
    rcases hcalls c with hsame | ⟨huc, hold, -⟩
    · exact hsame
    · -- the call in control is not the one that ends
      rcases hc with hc | ⟨b, hb⟩
      · rw [(hboard.inFlight c).mpr hc] at hold
        cases hold
      · rw [← huc] at hb
        exact absurd hb (hu b)
  · rw [htrace]
    exact hpending

/-- `delete st` of another thread. -/
lemma Inv.deleteState {u c : ℕ} (h : Inv body s ctl cfg rank log cold)
    (hu : ∀ a, ctl ≠ .hot u a) (huc : u = c + 1) (htop : cold u = [.delete c])
    (hc : (s.calls c).point = .completed) :
    Lowered body (deleteState u [] c s) cfg rank (load s cold) := by
  simp only [Awaitable.deleteState, hc]
  refine h.shorten hu htop rfl rfl rfl ?_ ?_ rfl rfl rfl rfl rfl
  · intro v
    by_cases hv : v = u
    · subst hv
      refine ⟨[], by simp, ?_⟩
      subst huc
      simp [bottom]
    · obtain ⟨l, hl, hcold⟩ := h.board.quiet v
      refine ⟨l, hl, ?_⟩
      rw [Function.update_of_ne hv, hcold]
      congr 1
      refine (bottom_congr fun c' hc' => ?_).symm
      have hne : c' ≠ c := by omega
      simp [Function.update_of_ne hne]
  · intro c'
    by_cases hne : c' = c
    · subst hne
      exact Or.inr ⟨huc, hc, by simp⟩
    · left
      simp only [Function.update_of_ne hne]

/-- `sync_wait` goes on when the semaphore lets it. -/
lemma Inv.acquire {rest : List (Activation Req Resp V E)} (h : Inv body s ctl cfg rank log cold)
    (hu : ∀ a, ctl ≠ .hot 0 a) (htop : cold 0 = .acquire :: rest)
    (hmain : ctl.main = .acquire :: rest) (hs : activate 0 rest s .acquire = some s') (n : ℕ) :
    Lowered body s' cfg rank n := by
  have hboard := h.board
  rw [activate] at hs
  split at hs
  · next hsemaphore =>
    simp only [Option.some.injEq] at hs
    subst hs
    have hctl := hboard.semaphore.mp hsemaphore
    subst hctl
    obtain ⟨pending, hat, htrace⟩ := h.here
    have hrest : rest = [] := by simpa [Control.main] using hmain.symm
    subst hrest
    cases hat with
    | signalled hl hp hx =>
      refine h.stay (show Board _ .collecting (Function.update cold 0 [.collect]) from ?_)
        (.collecting (hl.congr (by rfl) (by rfl)) hp hx) htrace (by norm_num)
      refine ⟨?_, fun u => ?_, fun u hu => ?_, by simp, fun c => ?_, hboard.fresh, by simp,
        fun _ => hboard.returned (by simp), hboard.fault⟩
      · show Function.update s.threads 0 _ = _
        rw [hboard.threads]
        rfl
      · by_cases hu0 : u = 0
        · subst hu0
          exact ⟨[], by simp, by simp [bottom, Control.main]⟩
        · obtain ⟨l, hl', hcold⟩ := hboard.quiet u
          refine ⟨l, hl', ?_⟩
          rw [Function.update_of_ne hu0, hcold]
          cases u with
          | zero => exact absurd rfl hu0
          | succ c => rfl
      · have hu' : s.nextCall < u := hu
        rw [Function.update_of_ne (by omega)]
        exact hboard.idle u hu'
      · have hold := hboard.inFlight c
        show (s.calls c).point = .inFlight ↔ _
        rw [hold]
        simp
  · cases hs

/-- `sync_wait` reads the promise of its task, which is at its end. -/
lemma Inv.collect {rest : List (Activation Req Resp V E)} (h : Inv body s ctl cfg rank log cold)
    (htop : cold 0 = .collect :: rest) (hmain : ctl.main = .collect :: rest) (n : ℕ) :
    Lowered body (collect 0 rest s) cfg rank n := by
  have hboard := h.board
  obtain ⟨pending, hat, htrace⟩ := h.here
  cases hat with
  | collecting hl hp hx =>
    have hrest : rest = [] := by simpa [Control.main] using hmain.symm
    subst hrest
    simp only [Awaitable.collect, hp, hx]
    refine h.stay (show Board _ .returned (Function.update cold 0 []) from ?_)
      (.returned (fun g => ?_) rfl) htrace (by norm_num)
    · refine ⟨?_, fun u => ?_, fun u hu => ?_, by simp, fun c => ?_, hboard.fresh, ?_, by simp,
        hboard.fault⟩
      · show Function.update s.threads 0 _ = _
        rw [hboard.threads]
        rfl
      · by_cases hu0 : u = 0
        · subst hu0
          exact ⟨[], by simp, by simp [bottom, Control.main]⟩
        · obtain ⟨l, hl', hcold⟩ := hboard.quiet u
          refine ⟨l, hl', ?_⟩
          rw [Function.update_of_ne hu0, hcold]
          cases u with
          | zero => exact absurd rfl hu0
          | succ c => rfl
      · have hu' : s.nextCall < u := hu
        rw [Function.update_of_ne (by omega)]
        exact hboard.idle u hu'
      · have hold := hboard.inFlight c
        show (s.calls c).point = .inFlight ↔ _
        rw [hold]
        simp
      · show s.semaphore = true ↔ _
        rw [hboard.semaphore]
        simp
    · by_cases hg : g = 0
      · subst hg
        simp [State.setThread, State.setPoint, State.setFrame]
      · simp only [State.setThread, State.setPoint, State.setFrame, Function.update_of_ne hg]
        exact hl.dead g hg (by simp)
  | start => exact absurd hmain (by simp [Control.main])
  | wake => exact absurd hmain (by simp [Control.main])
  | run => exact absurd hmain (by simp [Control.main])
  | suspend => exact absurd hmain (by simp [Control.main])
  | flying => exact absurd hmain (by simp [Control.main])
  | deliver => exact absurd hmain (by simp [Control.main])
  | callback => exact absurd hmain (by simp [Control.main])
  | final => exact absurd hmain (by simp [Control.main])
  | join => exact absurd hmain (by simp [Control.main])
  | release => exact absurd hmain (by simp [Control.main])
  | signalled => exact absurd hmain (by simp [Control.main])
  | returned => exact absurd hmain (by simp [Control.main])

/-- A step of a thread that is not in control. -/
lemma Inv.other {u : ℕ} (h : Inv body s ctl cfg rank log cold) (hu : ∀ a, ctl ≠ .hot u a)
    (hs : runThread u s = some s') : Lowered body s' cfg rank (load s cold) := by
  have hstack : s.threads u = cold u := by rw [h.board.threads, Control.threads_of_ne hu]
  rw [runThread, hstack] at hs
  cases htop : cold u with
  | nil =>
    rw [htop] at hs
    cases hs
  | cons a rest =>
    rw [htop] at hs
    rcases h.board.quiet.top htop with ⟨ha, hquiet⟩ | ⟨c, huc, rfl, rfl, hc⟩ | ⟨rfl, hmain⟩
    · -- the function returns
      have hs' : s' = s.setThread u rest := by
        cases a <;> first | exact ha.elim | exact (Option.some.inj hs).symm
      subst hs'
      exact h.shorten hu htop rfl rfl rfl hquiet (fun c => Or.inl rfl) rfl rfl rfl rfl rfl
    · simp only [activate, Option.some.injEq] at hs
      subst hs
      exact h.deleteState hu huc htop hc
    · rcases Control.main_cases hmain with rfl | rfl
      · exact h.acquire hu htop hmain hs _
      · simp only [activate, Option.some.injEq] at hs
        subst hs
        exact h.collect htop hmain _

/-- A step of the thread in control. -/
lemma Inv.control {t : ℕ} {a : Activation Req Resp V E}
    (h : Inv body s (.hot t a) cfg rank log cold) (hs : runThread t s = some s') (n : ℕ) :
    Lowered body s' cfg rank n := by
  have hstack : s.threads t = a :: cold t := by
    rw [h.board.threads, Control.threads, Function.update_self]
  rw [runThread, hstack] at hs
  have hkind : (∃ f, a = .resume f) ∨ (∃ f p, a = .run f p) ∨ (∃ f req, a = .suspend f req) ∨
      (∃ c answer, a = .deliver c answer) ∨ (∃ f result, a = .callback f result) ∨
      (∃ f, a = .final f) ∨ a = .release := by
    obtain ⟨pending, hat, -⟩ := h.here
    cases hat <;> simp
  rcases hkind with ⟨f, rfl⟩ | ⟨f, p, rfl⟩ | ⟨f, req, rfl⟩ | ⟨c, answer, rfl⟩ | ⟨f, result, rfl⟩ |
    ⟨f, rfl⟩ | rfl
  · exact Option.some.inj hs ▸ h.resume n
  · exact Option.some.inj hs ▸ h.runBody n
  · cases hs
  · exact Option.some.inj hs ▸ h.deliver n
  · exact Option.some.inj hs ▸ h.callback n
  · exact Option.some.inj hs ▸ h.finalSuspend n
  · exact Option.some.inj hs ▸ h.release n

/-- Every step keeps the invariant, and lowers the configuration or what is left to do in it. -/
lemma Inv.step {a : Action Resp} (h : Inv body s ctl cfg rank log cold)
    (hs : step s a = some s') : Lowered body s' cfg rank (load s cold) := by
  cases a with
  | run t =>
    by_cases hot : ∃ b, ctl = .hot t b
    · obtain ⟨b, rfl⟩ := hot
      exact h.control hs _
    · exact h.other (fun b hb => hot ⟨b, hb⟩) hs
  | tryAcquire t admitted =>
    have hs' : Awaitable.tryAcquire t admitted s = some s' := hs
    have hasks := hs'
    rw [Awaitable.tryAcquire] at hasks
    split at hasks
    · next f req rest htop =>
      -- only the activation in control asks the limiter
      by_cases hot : ∃ b, ctl = .hot t b
      · obtain ⟨b, rfl⟩ := hot
        rw [h.board.threads, Control.threads, Function.update_self, List.cons.injEq] at htop
        obtain ⟨rfl, -⟩ := htop
        exact h.tryAcquire hs' _
      · rw [h.board.threads, Control.threads_of_ne fun b hb => hot ⟨b, hb⟩] at htop
        rcases h.board.quiet.top htop with ⟨ha, -⟩ | ⟨c, -, ha, -⟩ | ⟨-, hmain⟩
        · exact ha.elim
        · cases ha
        · cases ctl <;> simp [Control.main] at hmain
    · cases hasks
  | complete c answer => exact h.complete hs _

end

end

end Awaitable
end TInvest
