import TInvest.Lib.Transition
import TInvest.Error

/-!
# Sessions: what a user of a stream observes

A session runs from a `start()` that launched a worker to the end of that worker. What the
user sees of it are the state notifications and the calls of the data handlers; both streams
of the SDK promise the same protocol for them.

* `sessionWords` — the words of notifications of one session;
* `Phase.Next` — the protocol as an automaton, with the worker and the connection an event
  belongs to;
* `WellBehaved` — the protocol as a property of a trace;
* `wellBehaved_of_path` — a trace the automaton follows is well behaved.
-/

namespace TInvest

open Lib.Transition

/-- `StreamState`. -/
inductive StreamState where
  | connecting
  | connected
  | disconnected
  | stopped
deriving DecidableEq

/-- `StreamOptions`; the backoffs in milliseconds, which are not negative. -/
structure StreamOptions where
  initialBackoff : ℕ := 100
  maxBackoff : ℕ := 30000
  reconnect : Bool := true
deriving DecidableEq

/-- Who calls: the worker of a session, or the reactor of a connection. -/
inductive Source where
  | worker (w : ℕ)
  | reactor (c : ℕ)
deriving DecidableEq

/-- What a user observes. `η` is a call of a data handler. A notification is a call of
`notify`, which hands it to `on_state_` when one is set. -/
inductive SessionEvent (η : Type) where
  | launched (w : ℕ)
  | notified (src : Source) (st : StreamState) (err : Option Error)
  | handled (c : ℕ) (call : η)
  | ended (w : ℕ)
  | stopReturned
deriving DecidableEq

namespace SessionEvent

variable {η : Type}

/-- The state a notification reports. -/
def state? : SessionEvent η → Option StreamState
  | notified _ st _ => some st
  | _ => none

/-- Notifications and handler calls run user code. -/
def isUserCall : SessionEvent η → Bool
  | notified .. => true
  | handled .. => true
  | _ => false

end SessionEvent

/-- The states notified along a trace. -/
def notifications {η : Type} (l : List (SessionEvent η)) : List StreamState :=
  l.filterMap SessionEvent.state?

/-! ## The words of a session -/

section
open RegularExpression

/-- One broken connection: `connecting connected? disconnected`. -/
def brokenConnection : RegularExpression StreamState :=
  char .connecting * ((1 + char .connected) * char .disconnected)

/-- The connection a session ends in, if any: `(connecting connected?)?`. -/
def lastConnection : RegularExpression StreamState :=
  1 + char .connecting * (1 + char .connected)

/-- `(connecting connected? disconnected)* (connecting connected?)? stopped`. -/
def sessionWords : RegularExpression StreamState :=
  brokenConnection.star * (lastConnection * char .stopped)

end

/-- `w` is a word of notifications a whole session may make. -/
def IsSessionWord (w : List StreamState) : Prop := w ∈ sessionWords.matches'

/-! ## The protocol -/

/-- Where a session is. -/
inductive Phase where
  | idle
  | between (w : ℕ)
  | connecting (w : ℕ)
  | connected (w c : ℕ)
  | finishing (w : ℕ)
deriving DecidableEq

namespace Phase

/-- A connection attempt of `w` is under way or has just failed. -/
def Attempting (p : Phase) (w : ℕ) : Prop := p = connecting w ∨ ∃ c, p = connected w c

/-- The session of `w` has not reported its end. -/
def Open (p : Phase) (w : ℕ) : Prop := p = between w ∨ p.Attempting w

@[simp] lemma attempting_connecting {v w : ℕ} : (connecting v).Attempting w ↔ v = w := by
  simp [Attempting]

@[simp] lemma attempting_connected {v w c : ℕ} : (connected v c).Attempting w ↔ v = w := by
  simp [Attempting]

@[simp] lemma not_attempting_between {v w : ℕ} : ¬ (between v).Attempting w := by
  simp [Attempting]

@[simp] lemma not_open_idle {w : ℕ} : ¬ idle.Open w := by
  simp [Open, Attempting]

@[simp] lemma not_open_finishing {v w : ℕ} : ¬ (finishing v).Open w := by
  simp [Open, Attempting]

@[simp] lemma open_between {v w : ℕ} : (between v).Open w ↔ v = w := by
  simp [Open]

@[simp] lemma open_connecting {v w : ℕ} : (connecting v).Open w ↔ v = w := by
  simp [Open]

@[simp] lemma open_connected {v w c : ℕ} : (connected v c).Open w ↔ v = w := by
  simp [Open]

lemma Attempting.open {p : Phase} {w : ℕ} (h : p.Attempting w) : p.Open w := Or.inr h

/-- A phase belongs to one session. -/
lemma Open.eq {p : Phase} {v w : ℕ} (hv : p.Open v) (hw : p.Open w) : v = w := by
  cases p <;> simp_all

/-- The protocol of both streams. -/
inductive Next {η : Type} : Phase → SessionEvent η → Phase → Prop
  | launched (w : ℕ) : Next idle (.launched w) (between w)
  | connecting (w : ℕ) :
    Next (between w) (.notified (.worker w) .connecting none) (connecting w)
  | connected (w c : ℕ) :
    Next (connecting w) (.notified (.reactor c) .connected none) (connected w c)
  | handled (w c : ℕ) (call : η) : Next (connected w c) (.handled c call) (connected w c)
  | disconnected (w : ℕ) (err : Error) {p : Phase} (h : p.Attempting w) :
    Next p (.notified (.worker w) .disconnected (some err)) (between w)
  | stopped (w : ℕ) {p : Phase} (h : p.Open w) :
    Next p (.notified (.worker w) .stopped none) (finishing w)
  | ended (w : ℕ) : Next (finishing w) (.ended w) idle
  | stopReturned : Next idle .stopReturned idle

end Phase

/-- The protocol, as a property of a trace. -/
structure WellBehaved {η : Type} (trace : List (SessionEvent η)) : Prop where
  /-- Between the launch of a worker and its end the notifications are a session word. -/
  words : ∀ pre w mid post, trace = pre ++ .launched w :: (mid ++ .ended w :: post) →
    .ended w ∉ mid → IsSessionWord (notifications mid)
  /-- An error comes with exactly the `disconnected` notifications. -/
  errors : ∀ src st err, .notified src st err ∈ trace → (err.isSome ↔ st = .disconnected)
  /-- A data handler runs after the `connected` of its own connection, with no notification
  in between. -/
  handlers : ∀ pre c call post, trace = pre ++ .handled c call :: post →
    ∃ pre' mid, pre = pre' ++ .notified (.reactor c) .connected none :: mid ∧
      notifications mid = []
  /-- After `stop()` returned no user code runs until the next launch. -/
  quiet : ∀ pre mid, trace = pre ++ .stopReturned :: mid → (∀ w, .launched w ∉ mid) →
    ∀ e ∈ mid, e.isUserCall = false

/-! ## Words -/

section Words
open RegularExpression

/-- A broken connection in front of a session word. -/
lemma isSessionWord_append {v w : List StreamState} (hv : v ∈ brokenConnection.matches')
    (hw : IsSessionWord w) : IsSessionWord (v ++ w) := by
  unfold IsSessionWord sessionWords at hw ⊢
  rw [matches'_mul, matches'_star, ← Language.one_add_self_mul_kstar_eq_kstar, add_mul]
  rw [matches'_mul, matches'_star] at hw
  -- one more turn of the star
  right
  rw [mul_assoc]
  exact Language.append_mem_mul hv hw

/-- The last connection of a session, and its end. -/
lemma isSessionWord_of_last {v : List StreamState} (hv : v ∈ lastConnection.matches') :
    IsSessionWord (v ++ [.stopped]) := by
  unfold IsSessionWord sessionWords
  rw [matches'_mul, matches'_star, matches'_mul]
  -- no turn of the star
  rw [← List.nil_append (v ++ [StreamState.stopped])]
  apply Language.append_mem_mul (Language.nil_mem_kstar _)
  exact Language.append_mem_mul hv rfl

/-- The notifications of the current connection so far. -/
def Phase.word : Phase → List StreamState
  | connecting _ => [.connecting]
  | connected _ _ => [.connecting, .connected]
  | _ => []

lemma Phase.Open.word_mem {p : Phase} {w : ℕ} (h : p.Open w) :
    p.word ∈ lastConnection.matches' := by
  rw [← rmatch_iff_matches']
  rcases h with rfl | rfl | ⟨c, rfl⟩ <;> rfl

lemma Phase.Attempting.word_mem {p : Phase} {w : ℕ} (h : p.Attempting w) :
    p.word ++ [.disconnected] ∈ brokenConnection.matches' := by
  rw [← rmatch_iff_matches']
  rcases h with rfl | ⟨c, rfl⟩ <;> rfl

end Words

/-! ## Traces that follow the protocol -/

section Traces

variable {η : Type} {e : SessionEvent η} {p q : Phase}

lemma notifications_append (l m : List (SessionEvent η)) :
    notifications (l ++ m) = notifications l ++ notifications m :=
  List.filterMap_append

/-- `l` completes the session of `w` from phase `p`. -/
def Completes (w : ℕ) (p : Phase) (l : List (SessionEvent η)) : Prop :=
  (p.Open w → IsSessionWord (p.word ++ notifications l)) ∧
    (p = .finishing w → notifications l = [])

lemma completes_finishing (w : ℕ) : Completes w (.finishing w) ([] : List (SessionEvent η)) := by
  refine ⟨?_, fun _ => rfl⟩
  intro h
  exact absurd h (by simp)

/-- One step back along the protocol. -/
lemma Completes.cons {w : ℕ} {l : List (SessionEvent η)} (hnext : Phase.Next p e q)
    (he : e ≠ .ended w) (h : Completes w q l) : Completes w p (e :: l) := by
  unfold Completes at *
  cases hnext with
  | launched v => simp
  | connecting v =>
    refine ⟨?_, by simp⟩
    intro hv
    simpa [Phase.word, notifications, SessionEvent.state?] using h.1 (by simpa using hv)
  | connected v c =>
    refine ⟨?_, by simp⟩
    intro hv
    simpa [Phase.word, notifications, SessionEvent.state?] using h.1 (by simpa using hv)
  | handled v c call =>
    refine ⟨?_, by simp⟩
    intro hv
    exact h.1 hv
  | disconnected v err hp =>
    refine ⟨?_, ?_⟩
    · intro hv
      -- the broken connection is complete; the rest is a session word of its own
      have hrest : IsSessionWord (notifications l) := by
        simpa [Phase.word] using h.1 (by simpa using hp.open.eq hv)
      simpa [notifications, SessionEvent.state?] using isSessionWord_append hp.word_mem hrest
    · intro hfin
      subst hfin
      exact absurd hp.open (by simp)
  | stopped v hp =>
    refine ⟨?_, ?_⟩
    · intro hv
      -- after `stopped` nothing is notified
      have hrest : notifications l = [] := h.2 (by rw [hp.eq hv])
      show IsSessionWord (p.word ++ .stopped :: notifications l)
      rw [hrest]
      exact isSessionWord_of_last hv.word_mem
    · intro hfin
      subst hfin
      exact absurd hp (by simp)
  | ended v =>
    refine ⟨by simp, ?_⟩
    intro hv
    cases hv
    exact absurd rfl he
  | stopReturned => simp

lemma completes_of_path {w : ℕ} {mid : List (SessionEvent η)}
    (h : Path Phase.Next p mid (.finishing w)) (hend : .ended w ∉ mid) : Completes w p mid := by
  -- from the end of the session back to its phase `p`
  induction mid generalizing p with
  | nil =>
    rw [path_nil_iff.mp h]
    exact completes_finishing w
  | cons e mid ih =>
    obtain ⟨q, hnext, hpath⟩ := path_cons_iff.mp h
    rw [List.mem_cons, not_or] at hend
    exact (ih hpath hend.2).cons hnext (Ne.symm hend.1)

/-- The last notification before a phase `connected w c` is the one of `c`. -/
lemma connected_of_path {w c : ℕ} {pre : List (SessionEvent η)}
    (h : Path Phase.Next .idle pre (.connected w c)) :
    ∃ pre' mid, pre = pre' ++ .notified (.reactor c) .connected none :: mid ∧
      notifications mid = [] := by
  induction pre using List.reverseRecOn with
  | nil => exact absurd (path_nil_iff.mp h) (by simp)
  | append_singleton pre e ih =>
    obtain ⟨q, hpath, hlast⟩ := path_append_iff.mp h
    obtain ⟨r, hnext, hr⟩ := path_cons_iff.mp hlast
    rw [path_nil_iff] at hr
    subst hr
    -- only these two events lead to a connected phase
    cases hnext with
    | connected => exact ⟨pre, [], rfl, rfl⟩
    | handled w c call =>
      obtain ⟨pre', mid, rfl, hmid⟩ := ih hpath
      refine ⟨pre', mid ++ [.handled c call], by simp, ?_⟩
      rw [notifications_append, hmid]
      rfl

/-- Nothing happens in an idle phase before the next launch. -/
lemma quiet_of_path {mid : List (SessionEvent η)} (h : Path Phase.Next .idle mid p)
    (hlaunch : ∀ w, .launched w ∉ mid) : ∀ e ∈ mid, e.isUserCall = false := by
  induction mid with
  | nil => simp
  | cons e mid ih =>
    obtain ⟨q, hnext, hpath⟩ := path_cons_iff.mp h
    intro e' he'
    -- from an idle phase the protocol only allows a launch or the return of a `stop()`
    cases hnext with
    | launched w => exact absurd (List.mem_cons_self ..) (hlaunch w)
    | disconnected v err hp => exact absurd hp.open (by simp)
    | stopped v hp => exact absurd hp (by simp)
    | stopReturned =>
      rcases List.mem_cons.mp he' with rfl | he'
      · rfl
      · exact ih hpath (fun w hw => hlaunch w (List.mem_cons_of_mem _ hw)) e' he'

lemma error_of_next {src : Source} {st : StreamState} {err : Option Error}
    (h : Phase.Next p (.notified src st err : SessionEvent η) q) :
    err.isSome ↔ st = .disconnected := by
  cases h <;> simp

/-- **The automaton is sound**: a trace it follows is well behaved. -/
lemma wellBehaved_of_path {trace : List (SessionEvent η)}
    (h : Path Phase.Next .idle trace p) : WellBehaved trace where
  words := by
    intro pre w mid post htrace hend
    subst htrace
    obtain ⟨p₁, -, h⟩ := path_append_iff.mp h
    obtain ⟨p₂, hlaunch, h⟩ := path_cons_iff.mp h
    obtain ⟨p₃, hmid, h⟩ := path_append_iff.mp h
    obtain ⟨p₄, hended, -⟩ := path_cons_iff.mp h
    -- the launch leads to phase `between w`, and the end leaves `finishing w`
    cases hlaunch
    cases hended
    simpa [Phase.word] using (completes_of_path hmid hend).1 (by simp)
  errors := by
    intro src st err hmem
    obtain ⟨pre, post, rfl⟩ := List.append_of_mem hmem
    obtain ⟨p₁, -, h⟩ := path_append_iff.mp h
    obtain ⟨p₂, hnext, -⟩ := path_cons_iff.mp h
    exact error_of_next hnext
  handlers := by
    intro pre c call post htrace
    subst htrace
    obtain ⟨p₁, hpre, h⟩ := path_append_iff.mp h
    obtain ⟨p₂, hnext, -⟩ := path_cons_iff.mp h
    cases hnext
    exact connected_of_path hpre
  quiet := by
    intro pre mid htrace hlaunch
    subst htrace
    obtain ⟨p₁, -, h⟩ := path_append_iff.mp h
    obtain ⟨p₂, hnext, h⟩ := path_cons_iff.mp h
    cases hnext
    exact quiet_of_path h hlaunch

end Traces

end TInvest
