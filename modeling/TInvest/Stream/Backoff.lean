import TInvest.Lib.Signed
import TInvest.Stream.Delivery

/-!
# The delay between two attempts

A worker that waits before it reconnects waits as long as the number of attempts that have failed
in a row says, where an attempt that brought data starts the count anew. The count is read off
the notifications a user sees.

* `checkedBackoff` — the delay on the integers of the source, and where it does not overflow;
* `failures` — the `disconnected` notifications since the last data, or since the launch;
* `Pc.Tally` — how the worker's own counter stands to it, at each point of `run()`;
* `backoff_grows` — the delay of every wait, on either stream.
-/

namespace TInvest

open Lib.Signed Lib.Transition

/-! ## The delay -/

/-- The delay doubles, eight times at most, up to `max_backoff`. -/
lemma backoffDelay_eq (opts : StreamOptions) (attempt : ℕ) :
    backoffDelay opts attempt = min (opts.initialBackoff * 2 ^ min attempt 8) opts.maxBackoff := by
  unfold backoffDelay
  rw [Nat.shiftLeft_eq, one_mul]
  dsimp only
  split
  · next h => exact (min_eq_right (le_of_lt h)).symm
  · next h => exact (min_eq_left (not_lt.mp h)).symm

/-- The options on which the delay is computed without overflow, whatever the counter. -/
def StreamOptions.InRange (opts : StreamOptions) : Prop :=
  opts.initialBackoff * 2 ^ 8 < 2 ^ 63 ∧ opts.maxBackoff < 2 ^ 63

instance (opts : StreamOptions) : Decidable opts.InRange := inferInstanceAs (Decidable (_ ∧ _))

/-- The same lines of `run()` on the types of the source: the delay, and `++attempt`. -/
def checkedBackoff (initialBackoff maxBackoff : Int64) (attempt : Int32) :
    Checked (Int64 × Int32) := do
  let factor : Int32 := 1 <<< (if 8 < attempt then 8 else attempt)
  let delay ← checked64 (initialBackoff.toInt * factor.toInt)
  let delay := if delay > maxBackoff then maxBackoff else delay
  let attempt ← checked32 (attempt.toInt + 1)
  return (delay, attempt)

/-- `1 << min(attempt, 8)` is a power of two. -/
lemma toInt_factor (m : ℕ) (hm : m + 1 < 2 ^ 31) :
    ((1 : Int32) <<< (if 8 < Int32.ofNat m then 8 else Int32.ofNat m)).toInt = 2 ^ min m 8 := by
  have hpow : ∀ n < 9, ((1 : Int32) <<< Int32.ofNat n).toInt = 2 ^ n := by decide
  have hlt : 8 < Int32.ofNat m ↔ 8 < m := by
    rw [Int32.lt_iff_toInt_lt, Int32.toInt_ofNat_of_lt (by omega)]
    exact Nat.cast_lt (m := 8) (n := m) (α := ℤ)
  by_cases h : 8 < m
  · rw [if_pos (hlt.mpr h), min_eq_right h.le]
    exact hpow 8 (by omega)
  · rw [if_neg (hlt.not.mpr h), min_eq_left (not_lt.mp h)]
    exact hpow m (by omega)

/-- **The delay in natural numbers is the one of the source**, where neither the product nor the
counter overflows. -/
lemma checkedBackoff_eq {opts : StreamOptions} (hopts : opts.InRange) {m : ℕ}
    (hm : m + 1 < 2 ^ 31) :
    checkedBackoff (.ofNat opts.initialBackoff) (.ofNat opts.maxBackoff) (.ofNat m)
      = some (.ofNat (backoffDelay opts m), .ofNat (m + 1)) := by
  obtain ⟨hinit, hmax⟩ := hopts
  have hpow : 2 ^ min m 8 ≤ 2 ^ 8 := Nat.pow_le_pow_right (by decide) (min_le_right m 8)
  have hdelay : opts.initialBackoff * 2 ^ min m 8 < 2 ^ 63 :=
    lt_of_le_of_lt (Nat.mul_le_mul_left _ hpow) hinit
  have hproduct : (Int64.ofNat opts.initialBackoff).toInt * 2 ^ min m 8
      = ((opts.initialBackoff * 2 ^ min m 8 : ℕ) : ℤ) := by
    rw [Int64.toInt_ofNat_of_lt (by omega)]
    push_cast
    rfl
  have hcount : (Int32.ofNat m).toInt + 1 = ((m + 1 : ℕ) : ℤ) := by
    rw [Int32.toInt_ofNat_of_lt (by omega)]
    push_cast
    rfl
  have hcap : Int64.ofNat (opts.initialBackoff * 2 ^ min m 8) > Int64.ofNat opts.maxBackoff ↔
      opts.initialBackoff * 2 ^ min m 8 > opts.maxBackoff := by
    rw [gt_iff_lt, Int64.lt_iff_toInt_lt, Int64.toInt_ofNat_of_lt hmax,
      Int64.toInt_ofNat_of_lt hdelay]
    exact Nat.cast_lt
  unfold checkedBackoff
  simp only [toInt_factor m hm, hproduct, hcount,
    checked64_of_fits (x := ((opts.initialBackoff * 2 ^ min m 8 : ℕ) : ℤ)) ⟨by omega, by omega⟩,
    checked32_of_fits (x := ((m + 1 : ℕ) : ℤ)) ⟨by omega, by omega⟩,
    Option.bind_eq_bind, Option.bind_some, Option.pure_def, Int64.ofInt_eq_ofNat,
    Int32.ofInt_eq_ofNat, hcap]
  rw [backoffDelay, Nat.shiftLeft_eq, one_mul, apply_ite Int64.ofNat]

/-! ## Failures in a row -/

/-- One more event. -/
def countFailure {η : Type} (n : ℕ) : SessionEvent η → ℕ
  | .launched _ | .notified _ .connected _ => 0
  | .notified _ .disconnected _ => n + 1
  | _ => n

/-- The attempts that have failed since the last data, or since the launch. -/
def failures {η : Type} (l : List (SessionEvent η)) : ℕ := l.foldl countFailure 0

lemma failures_append {η : Type} (l m : List (SessionEvent η)) :
    failures (l ++ m) = m.foldl countFailure (failures l) :=
  List.foldl_append

/-- The counter `attempt` at a point of `run()`, where `n` attempts have failed. `inOnce` says it
for the points of `run_once()`. -/
def Pc.Tally {κ : Type} (opts : StreamOptions) (inOnce : κ → Prop) (stopping gotData : Bool)
    (attempt n : ℕ) : Pc κ → Prop
  | .loopHead | .connecting => attempt = n
  | .once k => inOnce k
  -- a worker that has not started its call leaves the loop
  | .returned _ => stopping = true ∨ (if gotData then 0 else attempt) = n
  | .disconnected _ => (if gotData then 0 else attempt) = n
  | .backoff delay =>
    attempt = n ∧ opts.reconnect = true ∧ ∃ m, n = m + 1 ∧ delay = backoffDelay opts m
  | .leaving | .exiting | .ended => True

/-- **The loop counts its failures.** -/
lemma Worker.tally_of_step {κ η : Type} {opts : StreamOptions} {first : κ} {w n : ℕ}
    {stopping gotData : Bool} {worker worker' : Worker κ} {es : List (SessionEvent η)}
    (inOnce : ℕ → ℕ → κ → Prop) (hfirst : ∀ n, inOnce n n first)
    (h : worker.step opts first w stopping gotData = some (worker', es))
    (ht : worker.pc.Tally opts (inOnce worker.attempt n) stopping gotData worker.attempt n) :
    worker'.pc.Tally opts (inOnce worker'.attempt (es.foldl countFailure n)) stopping gotData
      worker'.attempt (es.foldl countFailure n) := by
  unfold Worker.step at h
  split at h <;> rename_i hpc
  all_goals rw [hpc] at ht
  · -- loopHead
    cases h
    cases stopping
    · exact ht
    · trivial
  · -- connecting
    cases h
    have ht : worker.attempt = n := ht
    show inOnce worker.attempt n first
    rw [ht]
    exact hfirst n
  · exact absurd h (by simp)
  · -- returned
    cases h
    cases stopping with
    | true => trivial
    | false => exact ht.resolve_left (by simp)
  · -- disconnected
    have ht : (if gotData then 0 else worker.attempt) = n := ht
    by_cases hreconnect : opts.reconnect
    · rw [if_pos hreconnect] at h
      cases h
      exact ⟨congrArg (· + 1) ht, hreconnect, n, rfl, congrArg (backoffDelay opts) ht⟩
    · rw [if_neg hreconnect] at h
      cases h
      trivial
  · -- backoff
    cases h
    cases stopping
    · exact ht.1
    · trivial
  · -- leaving
    cases h
    trivial
  · -- exiting
    cases h
    trivial
  · exact absurd h (by simp)

namespace MarketDataStream

open Pb

variable {cfg : Config} {s s' : State} {a : Action} {c w w' : ℕ} {pc pc' : Pc Once}

/-! ## The bidirectional stream -/

/-- The counter while a connection is under way: `got_data_` is set before `connected` is
reported. -/
inductive Count (gotData : Bool) (reading : Reading) (attempt n : ℕ) : Prop
  | waiting (hdata : gotData = false) (hr : reading = .idle ∨ reading = .pending)
    (hn : attempt = n)
  | first (hdata : gotData = true) (r : MarketDataResponse) (hr : reading = .connected r)
    (hn : attempt = n)
  | data (hdata : gotData = true) (hr : ∀ r, reading ≠ .connected r) (hn : n = 0)

/-- A step of the read side beside the announcement of the connection. -/
lemma Count.step {gotData : Bool} {before after : Reading} {attempt n : ℕ}
    (h : Count gotData before attempt n) (hbefore : ∀ r, before ≠ .connected r)
    (hafter : ∀ r, after ≠ .connected r)
    (hidle : before = .idle ∨ before = .pending → after = .idle ∨ after = .pending) :
    Count gotData after attempt n := by
  cases h with
  | waiting hdata hr hn => exact .waiting hdata (hidle hr) hn
  | first _ r hr => exact absurd hr (hbefore r)
  | data hdata _ hn => exact .data hdata hafter hn

/-- The counter at the points of `run_once()`. -/
def OnceCount (gotData : Bool) (reading : ℕ → Reading) (attempt n : ℕ) : Once → Prop
  | .fill => attempt = n
  | .startCall _ => attempt = n ∧ gotData = false
  | .publish c | .waiting c => Count gotData (reading c) attempt n

/-- The counter of worker `w`, at `pc`. -/
def TallyAt (cfg : Config) (s : State) (w : ℕ) (pc : Pc Once) : Prop :=
  pc.Tally cfg.opts
    (OnceCount s.gotData s.readings (s.threads.workers w).attempt (failures (sessionTrace s.trace)))
    s.stopping s.gotData (s.threads.workers w).attempt (failures (sessionTrace s.trace))

/-- A step that neither the user nor the worker sees. -/
lemma TallyAt.unseen (h : TallyAt cfg s w pc) (hu : Unseen s s')
    (hattempt : (s'.threads.workers w).attempt = (s.threads.workers w).attempt)
    (hstop : s.stopping = true → s'.stopping = true) : TallyAt cfg s' w pc := by
  unfold TallyAt at h ⊢
  rw [hu.gotData, hu.readings, hu.trace, hattempt]
  cases pc with
  | returned status => exact h.imp_left hstop
  | _ => exact h

/-- A step of the read side of the current connection. -/
lemma TallyAt.read (h : TallyAt cfg s w pc) (hat : ConnAt s pc) (ha : s.Active c)
    (hthreads : s'.threads = s.threads)
    (hstep : ∀ attempt, Count s.gotData (s.readings c) attempt (failures (sessionTrace s.trace)) →
      Count s'.gotData (s'.readings c) attempt (failures (sessionTrace s'.trace))) :
    TallyAt cfg s' w pc := by
  unfold TallyAt at h ⊢
  rw [hthreads]
  rcases pc_of_active hat ha with rfl | rfl
  · exact hstep _ h
  · exact hstep _ h

/-- **Every move keeps the count.** -/
lemma TallyAt.move (h : TallyAt cfg s w pc) (hat : ConnAt s pc) (hquiet : Quiet s)
    (hm : Move cfg s w pc a s' w' pc') : TallyAt cfg s' w' pc' := by
  have hstopping : a ≠ .start → s.stopping = true → s'.stopping = true :=
    fun ha hstop => stopping_of_move hstop hm ha
  cases hm with
  | launch =>
    show (s.threads.launch.workers s.threads.nextWorker).attempt = failures _
    rw [sessionTrace_append, failures_append]
    simp [Threads.launch, sessionTrace, countFailure]
  | joinable => exact h
  | stop t =>
    exact h.unseen (unseen_stop s t) (by rw [stop_threads]; rfl) (hstopping (by simp))
  | returnStop t target =>
    unfold TallyAt at h ⊢
    rw [sessionTrace_append, failures_append]
    exact h
  | send request remember =>
    exact h.unseen (unseen_send s _) (by rw [send_threads]) (hstopping (by simp))
  | run worker es _ hpc hstep =>
    unfold TallyAt at h ⊢
    rw [sessionTrace_append, sessionTrace_map_session, failures_append]
    simp only [Threads.setWorker, Function.update_self]
    rw [← hpc] at h
    exact Worker.tally_of_step (OnceCount s.gotData s.readings) (fun _ => by rfl) hstep h
  | cancelled hpc hstop =>
    unfold State.fill
    rw [if_pos hstop]
    exact Or.inl hstop
  | fill hpc hrun =>
    subst hpc
    have hn : (s.threads.workers w).attempt = failures (sessionTrace s.trace) := h
    unfold State.fill
    rw [if_neg (by simp [hrun])]
    refine ⟨?_, rfl⟩
    simpa [State.emit, State.setPc, Threads.setWorker, sessionTrace] using hn
  | startCall c hpc =>
    subst hpc
    obtain ⟨hn, hdata⟩ := h
    refine .waiting hdata (Or.inr ?_) ?_
    · simp [State.startCall, State.emit, State.setPc, State.setReactor, State.readings]
    · simpa [State.startCall, State.emit, State.setPc, State.setReactor, Threads.setWorker,
        sessionTrace] using hn
  | publish c hpc =>
    subst hpc
    have hwait : TallyAt cfg s w (.once (.waiting c)) := h
    refine hwait.unseen (unseen_publish s w c) ?_ (hstopping (by simp))
    rw [publish_threads]
    simp [State.setPc, Threads.setWorker]
  | finishOnce c hpc hdone =>
    subst hpc
    -- no callback is in the middle of a response any more
    have hover : ¬ s.Active c := by
      intro hact
      obtain ⟨g, hg, hconn, -⟩ := hat
      rcases hg with rfl | rfl
      · exact absurd (hconn.own.2.1.symm.trans hdone) (by simp)
      · exact absurd ((hconn.active c).mp hact) (by simp [Stage.active])
    have hcount : Count s.gotData (s.readings c) (s.threads.workers w).attempt
        (failures (sessionTrace s.trace)) := h
    have hattempt : ((s.finishOnce w).threads.workers w).attempt
        = (s.threads.workers w).attempt := by
      simp [State.finishOnce, State.setPc, Threads.setWorker]
    right
    rw [hattempt]
    show (if s.gotData then 0 else _) = failures (sessionTrace s.trace)
    cases hcount with
    | waiting hdata _ hn =>
      rw [hdata]
      exact hn
    | first _ r hr => rcases hquiet c hover with h | h <;> exact absurd (hr.symm.trans h) (by simp)
    | data hdata _ hn =>
      rw [hdata]
      exact hn.symm
  | response c r hactive hreading =>
    have hpending : s.readings c = .pending := hreading
    refine h.read hat hactive (by simp) ?_
    intro attempt hcount
    unfold State.handleResponse
    split
    · next hdata =>
      rw [readings_setReactor]
      cases hcount with
      | waiting hnone => exact absurd (hnone.symm.trans hdata) (by simp)
      | first _ r' hr' => exact absurd (hpending.symm.trans hr') (by simp)
      | data _ _ hn => exact .data hdata (by simp) hn
    · next hdata =>
      have heq : (State.readings { s.setReactor c { s.reactors c with reading := .connected r } with
          gotData := true }) c = .connected r := readings_setReactor s c _
      cases hcount with
      | waiting _ _ hn => exact .first rfl r heq hn
      | first hset => exact absurd hset hdata
      | data hset => exact absurd hset hdata
  | readClosed c hactive hreading =>
    have hpending : s.readings c = .pending := hreading
    have hclosed : TallyAt cfg (s.setReactor c { s.reactors c with reading := .idle }) w pc := by
      refine h.read hat hactive rfl ?_
      intro attempt hcount
      rw [readings_setReactor]
      rw [hpending] at hcount
      exact hcount.step (by simp) (by simp) (by simp)
    unfold State.handleReadClosed
    refine hclosed.unseen (Unseen.trans ?_ (unseen_releaseLocked _ _)) (by simp) (by simp)
    exact ⟨rfl, rfl, rfl⟩
  | connected c r hactive hreading =>
    -- data has come: the count starts anew
    have hconnected : s.readings c = .connected r := hreading
    refine h.read hat hactive rfl ?_
    intro attempt hcount
    rw [hconnected] at hcount
    have hdata : s.gotData = true := by
      cases hcount with
      | waiting _ hr => exact absurd hr (by simp)
      | first hdata => exact hdata
      | data hdata => exact hdata
    refine .data hdata ?_ ?_
    · simp [State.emit, State.readings, State.setReactor]
    · simp [State.emit, State.setReactor, sessionTrace, failures, countFailure]
  | handled c call calls hactive hreading =>
    have hdispatching : s.readings c = .dispatching (call :: calls) := hreading
    refine h.read hat hactive rfl ?_
    intro attempt hcount
    rw [hdispatching] at hcount
    show Count s.gotData ((s.setReactor c _).readings c) attempt _
    rw [readings_setReactor]
    simp only [State.emit, sessionTrace_append, failures_append]
    exact hcount.step (by simp) (by simp) (by simp)
  | startRead c hactive hreading =>
    have hdispatching : s.readings c = .dispatching [] := hreading
    refine h.read hat hactive rfl ?_
    intro attempt hcount
    rw [hdispatching] at hcount
    rw [readings_setReactor]
    exact hcount.step (by simp) (by simp) (by simp)
  | writeDone c ok =>
    exact h.unseen (unseen_writeDone s c ok) (by simp [State.setReactor]) (hstopping (by simp))
  | done c status =>
    refine TallyAt.unseen (s := s.setReactor c { s.reactors c with finished := true }) ?_ ?_ rfl id
    · exact h.unseen (unseen_setReactor s c (s.reactors c).holds (s.reactors c).writes true) rfl id
    · exact ⟨rfl, rfl, by simp [State.emit, State.handleDone, State.setReactor, sessionTrace]⟩
  | removeHold caller c =>
    refine TallyAt.unseen (s := s.setReactor c { s.reactors c with
      holds := (s.reactors c).holds - 1 }) ?_ ?_ rfl id
    · exact h.unseen (unseen_setReactor s c ((s.reactors c).holds - 1) (s.reactors c).writes
        (s.reactors c).finished) rfl id
    · exact ⟨rfl, rfl, by simp [State.emit, State.setReactor, sessionTrace]⟩

lemma tallyAt_of_reachable {ok : State → Action → Prop} (hok : ∀ s a, ok s a → LaunchSafe s a)
    (h : Reachable (system cfg) ok s) : ∃ w pc, s.threads.Current w pc ∧ TallyAt cfg s w pc := by
  apply invariant_of_move (J := TallyAt cfg) hok trivial ?_ h
  intro s a s' w pc w' pc' hreach hcur _ hm htally
  exact htally.move (connAt_of_current hok hreach hcur) (quiet_of_reachable hok hreach) hm

end MarketDataStream
namespace ServerStream

variable {Resp : Type} {cfg : Config Resp} {s s' : State Resp} {a : Action Resp}
  {c w w' : ℕ} {pc pc' : Pc Once}

/-! ## Server-side streams -/

/-- The counter while a connection is under way. -/
inductive Count (gotData : Bool) (reading : Reading Resp) (attempt n : ℕ) : Prop
  | waiting (hdata : gotData = false)
    (hr : reading = .idle ∨ reading = .pending ∨ ∃ r, reading = .unset r) (hn : attempt = n)
  | first (hdata : gotData = true) (r : Resp) (hr : reading = .connected r) (hn : attempt = n)
  | data (hdata : gotData = true) (hr : ∀ r, reading ≠ .unset r ∧ reading ≠ .connected r)
    (hn : n = 0)

/-- The counter at the points of `run_once()` and of the reset before it. -/
def OnceCount (gotData : Bool) (reading : ℕ → Reading Resp) (attempt n : ℕ) : Once → Prop
  | .reset => attempt = n
  | .enter | .startCall _ => attempt = n ∧ gotData = false
  | .waiting c => Count gotData (reading c) attempt n

/-- The counter of worker `w`, at `pc`. -/
def TallyAt (cfg : Config Resp) (s : State Resp) (w : ℕ) (pc : Pc Once) : Prop :=
  pc.Tally cfg.opts
    (OnceCount s.gotData s.readings (s.threads.workers w).attempt (failures s.trace))
    s.stopping s.gotData (s.threads.workers w).attempt (failures s.trace)

/-- A read callback keeps the count, until data has come. -/
lemma Count.read {gotData gotData' : Bool} {before after : Reading Resp} {attempt n : ℕ}
    {es : List (SessionEvent Resp)} (h : Count gotData before attempt n)
    (hread : ReadStep cfg c gotData before gotData' after es) :
    Count gotData' after attempt (es.foldl countFailure n) := by
  cases hread with
  | response r =>
    cases h with
    | waiting hdata _ hn => exact .waiting hdata (by simp [hdata]) hn
    | first _ r' hr' => exact absurd hr' (by simp)
    | data hdata _ hn => exact .data hdata (by simp [hdata]) hn
  | closed =>
    cases h with
    | waiting hdata _ hn => exact .waiting hdata (Or.inl rfl) hn
    | first _ r' hr' => exact absurd hr' (by simp)
    | data hdata _ hn => exact .data hdata (by simp) hn
  | set r =>
    cases h with
    | waiting _ _ hn => exact .first rfl r rfl hn
    | first _ r' hr' => exact absurd hr' (by simp)
    | data _ hr => exact absurd rfl (hr r).1
  | connected r =>
    cases h with
    | waiting _ hr => exact absurd hr (by simp)
    | first hdata => exact .data hdata (by simp) rfl
    | data _ hr => exact absurd rfl (hr r).2
  | data r =>
    have hes : (State.dataCalls cfg c r).foldl countFailure n = n := by
      unfold State.dataCalls
      split
      · rfl
      · split <;> rfl
    cases h with
    | waiting _ hr => exact absurd hr (by simp)
    | first _ r' hr' => exact absurd hr' (by simp)
    | data hdata _ hn => exact .data hdata (by simp) (hes.trans hn)
  | restart =>
    cases h with
    | waiting _ hr => exact absurd hr (by simp)
    | first _ r' hr' => exact absurd hr' (by simp)
    | data hdata _ hn => exact .data hdata (by simp) hn

/-- **Every move keeps the count.** -/
lemma TallyAt.move (h : TallyAt cfg s w pc) (hat : ConnAt s pc) (hquiet : Quiet s)
    (hm : Move cfg s w pc a s' w' pc') : TallyAt cfg s' w' pc' := by
  cases hm with
  | launch =>
    show (s.threads.launch.workers s.threads.nextWorker).attempt = failures _
    rw [failures_append]
    simp [Threads.launch, countFailure]
  | joinable => exact h
  | stop t =>
    have hreadings := readings_stop s t
    have hsame : (s.stop t).gotData = s.gotData ∧ (s.stop t).trace = s.trace ∧
        (s.stop t).stopping = true := by
      unfold State.stop
      dsimp only
      split <;> exact ⟨rfl, rfl, rfl⟩
    unfold TallyAt at h ⊢
    rw [hreadings, hsame.1, hsame.2.1, hsame.2.2, stop_threads]
    cases pc with
    | returned status => exact Or.inl rfl
    | _ => exact h
  | returnStop t target =>
    unfold TallyAt at h ⊢
    rw [failures_append]
    exact h
  | run worker es _ hpc hstep =>
    unfold TallyAt at h ⊢
    rw [failures_append]
    simp only [Threads.setWorker, Function.update_self]
    rw [← hpc] at h
    exact Worker.tally_of_step (OnceCount s.gotData s.readings) (fun _ => by rfl) hstep h
  | reset hpc =>
    subst hpc
    have hn : (s.threads.workers w).attempt = failures s.trace := h
    refine ⟨?_, rfl⟩
    simpa [State.setPc, Threads.setWorker] using hn
  | cancelled hpc hstop =>
    unfold State.enter
    rw [if_pos hstop]
    exact Or.inl hstop
  | enter hpc hrun =>
    subst hpc
    obtain ⟨hn, hdata⟩ := h
    unfold State.enter
    rw [if_neg (by simp [hrun])]
    refine ⟨?_, hdata⟩
    simpa [State.setPc, Threads.setWorker] using hn
  | startCall c hpc =>
    subst hpc
    obtain ⟨hn, hdata⟩ := h
    refine .waiting hdata (Or.inr (Or.inl ?_)) ?_
    · simp [State.startCall, State.setPc, State.setReactor, State.readings]
    · simpa [State.startCall, State.setPc, State.setReactor, Threads.setWorker] using hn
  | finishOnce c hpc hdone =>
    subst hpc
    -- no callback is in the middle of a message any more
    have hover : ¬ s.Active c := fun hact =>
      absurd (hdone.symm.trans ((hat.active c).mp hact).2) (by simp)
    have hcount : Count s.gotData (s.readings c) (s.threads.workers w).attempt
        (failures s.trace) := h
    have hattempt : ((s.finishOnce w).threads.workers w).attempt
        = (s.threads.workers w).attempt := by
      simp [State.finishOnce, State.setPc, Threads.setWorker]
    right
    rw [hattempt]
    show (if s.gotData then 0 else _) = failures s.trace
    cases hcount with
    | waiting hdata _ hn =>
      rw [hdata]
      exact hn
    | first _ r hr => rcases hquiet c hover with h | h <;> exact absurd (hr.symm.trans h) (by simp)
    | data hdata _ hn =>
      rw [hdata]
      exact hn.symm
  | read c gotData reading es _ hactive hread =>
    obtain ⟨rfl, -⟩ := (hat.active c).mp hactive
    have hcount : Count s.gotData (s.reactors c).reading (s.threads.workers w).attempt
        (failures s.trace) := h
    have hkept := hcount.read hread
    rw [← failures_append] at hkept
    simpa [TallyAt, Pc.Tally, OnceCount, State.readings, State.setReading, State.setReactor]
      using hkept
  | done c status =>
    unfold TallyAt at h ⊢
    have hreadings := readings_setReactor s c (s.reactors c).cancelled true
    rw [← hreadings] at h
    exact h

lemma tallyAt_of_reachable {ok : State Resp → Action Resp → Prop}
    (hok : ∀ s a, ok s a → LaunchSafe s a) (h : Reachable (system cfg) ok s) :
    ∃ w pc, s.threads.Current w pc ∧ TallyAt cfg s w pc := by
  apply invariant_of_move (J := TallyAt cfg) hok trivial ?_ h
  intro s a s' w pc w' pc' hreach hcur _ hm htally
  exact htally.move (connAt_of_current hok hreach hcur) (quiet_of_reachable hok hreach) hm

end ServerStream

/-! ## Both streams -/

variable {Resp : Type} {mdCfg : MarketDataStream.Config} {ssCfg : ServerStream.Config Resp}
  {s : MarketDataStream.State} {u : ServerStream.State Resp}

/-- A worker in its wait, whose counter is the count. -/
lemma delay_of_tally {κ : Type} {T : Threads κ} {opts : StreamOptions} {v w n delay : ℕ}
    {pc : Pc κ} {inOnce : κ → Prop} {stopping gotData : Bool} (hcur : T.Current v pc)
    (ht : pc.Tally opts inOnce stopping gotData (T.workers v).attempt n)
    (hpc : (T.workers w).pc = .backoff delay) :
    opts.reconnect = true ∧ ∃ m, n = m + 1 ∧
      delay = min (opts.initialBackoff * 2 ^ min m 8) opts.maxBackoff ∧
      (opts.InRange → m + 1 < 2 ^ 31 → checkedBackoff (.ofNat opts.initialBackoff)
        (.ofNat opts.maxBackoff) (.ofNat m) = some (.ofNat delay, .ofNat (m + 1))) := by
  -- a worker that waits is the one that runs
  have hrun : T.Running w := by
    intro hended
    exact absurd (hpc.symm.trans hended) (by simp)
  obtain ⟨rfl, rfl⟩ := hcur.of_running w hrun
  rw [hpc] at ht
  obtain ⟨-, hreconnect, m, hm, hdelay⟩ := ht
  refine ⟨hreconnect, m, hm, ?_, ?_⟩
  · rw [hdelay, backoffDelay_eq]
  · intro hopts hcount
    rw [hdelay]
    exact checkedBackoff_eq hopts hcount

/-- **The backoff of both streams.** In every run of safe launches a worker waits only if
`reconnect` is set, and then its delay is `initial_backoff` doubled once for each failure in a row
before the last one, eight times at most, and `max_backoff` at most; the failures in a row are the
`disconnected` notifications since the last `connected` one or the launch. On options in range, and
as long as an `int` can count the failures, the lines of `run()` compute this delay and this count
without overflow. -/
theorem backoff_grows
    (h : Reachable (MarketDataStream.system mdCfg) MarketDataStream.LaunchSafe s)
    (h' : Reachable (ServerStream.system ssCfg) ServerStream.LaunchSafe u) :
    (∀ w delay, (s.threads.workers w).pc = .backoff delay →
      mdCfg.opts.reconnect = true ∧
      ∃ m, failures (MarketDataStream.sessionTrace s.trace) = m + 1 ∧
        delay = min (mdCfg.opts.initialBackoff * 2 ^ min m 8) mdCfg.opts.maxBackoff ∧
        (mdCfg.opts.InRange → m + 1 < 2 ^ 31 →
          checkedBackoff (.ofNat mdCfg.opts.initialBackoff) (.ofNat mdCfg.opts.maxBackoff)
            (.ofNat m) = some (.ofNat delay, .ofNat (m + 1)))) ∧
    (∀ w delay, (u.threads.workers w).pc = .backoff delay →
      ssCfg.opts.reconnect = true ∧
      ∃ m, failures u.trace = m + 1 ∧
        delay = min (ssCfg.opts.initialBackoff * 2 ^ min m 8) ssCfg.opts.maxBackoff ∧
        (ssCfg.opts.InRange → m + 1 < 2 ^ 31 →
          checkedBackoff (.ofNat ssCfg.opts.initialBackoff) (.ofNat ssCfg.opts.maxBackoff)
            (.ofNat m) = some (.ofNat delay, .ofNat (m + 1)))) := by
  obtain ⟨v, pc, hcur, ht⟩ := MarketDataStream.tallyAt_of_reachable (fun _ _ hok => hok) h
  obtain ⟨v', pc', hcur', ht'⟩ := ServerStream.tallyAt_of_reachable (fun _ _ hok => hok) h'
  constructor
  · intro w delay hpc
    exact delay_of_tally hcur ht hpc
  · intro w delay hpc
    exact delay_of_tally hcur' ht' hpc

/-- The first wait of one stream, and the second one of the other, twice as long. -/
theorem backoff_grows_twice :
    ∃ (s : MarketDataStream.State) (u : ServerStream.State ℕ),
      Reachable (MarketDataStream.system MarketDataStream.demoConfig)
        MarketDataStream.LaunchSafe s ∧
      Reachable (ServerStream.system demoServerConfig) ServerStream.LaunchSafe u ∧
      (s.threads.workers 0).pc = .backoff 100 ∧ (u.threads.workers 0).pc = .backoff 200 ∧
      (∃ m, failures (MarketDataStream.sessionTrace s.trace) = m + 1 ∧
        100 = min (100 * 2 ^ min m 8) 30000) ∧
      ∃ m, failures u.trace = m + 1 ∧ 200 = min (100 * 2 ^ min m 8) 30000 ∧
        (m + 1 < 2 ^ 31 → checkedBackoff 100 30000 (.ofNat m) = some (200, .ofNat (m + 1))) := by
  obtain ⟨s, hs, hps⟩ := exists_reachable_of_run
    (MarketDataStream.system MarketDataStream.demoConfig) MarketDataStream.Sequential
    (fun s => decide ((s.threads.workers 0).pc = .backoff 100))
    (MarketDataStream.connectSteps ++
      [.onReadDone 0 none, .removeHold (.read 0) 0, .onDone 0 .cancelled, .worker 0, .worker 0,
        .worker 0])
    (by decide +kernel)
  obtain ⟨u, hu, hpu⟩ := exists_reachable_of_run
    (ServerStream.system demoServerConfig) ServerStream.Sequential
    (fun u => decide ((u.threads.workers 0).pc = .backoff 200))
    [.start, .worker 0, .worker 0, .worker 0, .worker 0, .worker 0, .onDone 0 .cancelled,
      .worker 0, .worker 0, .worker 0, .worker 0, .worker 0, .worker 0, .worker 0, .worker 0,
      .worker 0, .onDone 1 .cancelled, .worker 0, .worker 0, .worker 0]
    (by decide +kernel)
  rw [decide_eq_true_eq] at hps hpu
  have hs' := hs.mono MarketDataStream.Sequential.launchSafe
  have hu' := hu.mono ServerStream.Sequential.launchSafe
  have hboth := backoff_grows hs' hu'
  obtain ⟨-, m, hm, hdelay, -⟩ := hboth.1 0 100 hps
  obtain ⟨-, n, hn, hdelay', hchecked⟩ := hboth.2 0 200 hpu
  exact ⟨s, u, hs', hu', hps, hpu, ⟨m, hm, hdelay⟩, n, hn, hdelay', hchecked (by decide)⟩

end TInvest
