import TInvest.RateLimiter.Reconfiguration

/-!
# Sleeping callers

A caller that finds its group full sleeps on `cv_` until the end of the window it has seen. The
limiter as a monitor: its sections, and for every sleeping caller the deadline of `wait_until` and
whether `cv_.notify_all()` was called since it went to sleep. The condition variable is shared by
all groups, and it may wake a caller for no reason.

* `limiter_of_monitor`, `monitor_of_limiter` — the monitor has the runs of the limiter;
* `Watched` — a caller that was not notified sleeps until the end of the current window of its
  group, and that window is full;
* `sleepers_not_late` — so no caller sleeps while there is a slot for it.
-/

namespace TInvest
namespace RateLimiter

open Lib.Transition
open Lib.FixedWindow

/-- A caller in `wait_until`. -/
structure Sleep where
  deadline : ℤ
  notified : Bool
deriving DecidableEq

/-- The limiter and the callers that sleep on its condition variable. -/
structure Monitor where
  limiter : State := {}
  sleeps : ℕ → Option Sleep := fun _ => none

/-- `roll_window` opens a window; the callers of `roll_window` skip it for a group without a
limit. -/
def rolls (W now : ℤ) (g : Group) : Bool :=
  decide (0 < g.limit ∧ W ≤ now - g.windowStart)

/-- The section calls `cv_.notify_all()`. -/
def notifies (W : ℤ) (s : State) : Action → Bool
  | .configure _ => true
  | .setLimit _ _ => true
  | .tryAcquire method now => s.byMethod[method]?.any fun g => rolls W now (s.groups g)
  | .acquire _ method now => s.byMethod[method]?.any fun g => rolls W now (s.groups g)
  | .wake thread now => (s.waiting thread).any fun p => rolls W now (s.groups p.2)

/-- `cv_.notify_all()`. -/
def notifyAll (sleeps : ℕ → Option Sleep) (thread : ℕ) : Option Sleep :=
  (sleeps thread).map fun z => { z with notified := true }

/-- The caller whose `acquire` the section belongs to. -/
def Action.caller? : Action → Option ℕ
  | .configure _ => none
  | .setLimit _ _ => none
  | .tryAcquire _ _ => none
  | .acquire thread _ _ => some thread
  | .wake thread _ => some thread

/-- `cv_.wait_until(lk, g->window_start + window_)` of a caller that is left waiting. -/
def waitUntil (W : ℤ) (s : State) (thread : ℕ) : Option Sleep :=
  (s.waiting thread).map fun p => ⟨(s.groups p.2).windowStart + W, false⟩

/-- The sleeping callers after the notifications of a section. -/
def told (W : ℤ) (s : Monitor) (a : Action) : ℕ → Option Sleep :=
  if notifies W s.limiter a then notifyAll s.sleeps else s.sleeps

/-- One section: it may notify the sleeping callers, and its own caller may go to sleep. -/
def monitorStep (W : ℤ) (s : Monitor) (a : Action) : Option Monitor :=
  (step W s.limiter a).map fun s' =>
    match a.caller? with
    | none => ⟨s', told W s a⟩
    | some thread => ⟨s', Function.update (told W s a) thread (waitUntil W s' thread)⟩

/-- The limiter with its condition variable. -/
def monitor (W : ℤ) : System Monitor Action := ⟨{}, monitorStep W⟩

/-- What a section does to the sleeping callers. -/
lemma monitorStep_cases {W : ℤ} {s s' : Monitor} {a : Action} (h : monitorStep W s a = some s') :
    step W s.limiter a = some s'.limiter ∧ ∀ t, s'.sleeps t =
      if a.caller? = some t then waitUntil W s'.limiter t else told W s a t := by
  obtain ⟨after, hs, hs'⟩ := Option.map_eq_some_iff.mp h
  cases hcaller : a.caller? with
  | none =>
    simp only [hcaller] at hs'
    rw [← hs']
    exact ⟨hs, fun t => by rw [if_neg (by simp)]⟩
  | some thread =>
    simp only [hcaller] at hs'
    rw [← hs']
    refine ⟨hs, fun t => ?_⟩
    show Function.update (told W s a) thread _ t = _
    by_cases ht : thread = t
    · rw [ht, if_pos rfl, Function.update_self]
    · rw [if_neg (by simpa using ht), Function.update_of_ne fun h => ht h.symm]

/-- The monitor runs the limiter. -/
lemma limiter_of_monitor {W : ℤ} {ok : State → Action → Prop} {s : Monitor}
    (h : Reachable (monitor W) (fun s a => ok s.limiter a) s) :
    Reachable (limiter W) ok s.limiter := by
  induction h with
  | init => exact .init
  | step a _ hok hs ih => exact .step a ih hok (monitorStep_cases hs).1

/-- Every run of the limiter is one of the monitor. -/
lemma monitor_of_limiter {W : ℤ} {ok : State → Action → Prop} {s : State}
    (h : Reachable (limiter W) ok s) :
    ∃ s', s'.limiter = s ∧ Reachable (monitor W) (fun s a => ok s.limiter a) s' := by
  induction h with
  | init => exact ⟨{}, rfl, .init⟩
  | step a _ hok hs ih =>
    obtain ⟨s₀, rfl, hreach⟩ := ih
    obtain ⟨s', hs'⟩ : ∃ s', monitorStep W s₀ a = some s' := by
      have hs₀ : step W s₀.limiter a = some _ := hs
      rw [monitorStep, hs₀]
      exact ⟨_, rfl⟩
    have hlimiter : some s'.limiter = some _ := (monitorStep_cases hs').1.symm.trans hs
    exact ⟨s', Option.some.inj hlimiter, .step a hreach hok hs'⟩

/-! ## One section -/

/-- What a section that asks for a slot does: it checks one group, notifies if that rolls over, and
decides about its own caller alone. -/
structure Asked (W : ℤ) (s s' : State) (a : Action) (m : String) (group : Option ℕ) (now : ℤ) :
    Prop where
  groups : s'.groups = (check W s m group now).1.groups
  notifies : notifies W s a = group.any fun g => rolls W now (s.groups g)
  others : ∀ t, a.caller? ≠ some t → s'.waiting t = s.waiting t
  caller : ∀ t, a.caller? = some t → s'.waiting t =
    if (check W s m group now).2 = .full then group.map fun g => (m, g) else none

lemma acquire_asked {W : ℤ} {s s' : State} {thread : ℕ} {m : String} {now : ℤ}
    (h : acquire W thread m now s = some s') :
    Asked W s s' (.acquire thread m now) m s.byMethod[m]? now := by
  simp only [acquire] at h
  split at h
  · next hnone =>
    obtain rfl := Option.some.inj h
    have hwaiting := check_waiting W s m s.byMethod[m]? now
    split
    · next hfull =>
      refine ⟨rfl, rfl, fun t ht => ?_, fun t ht => ?_⟩
      · have hne : t ≠ thread := fun h => ht (congrArg some h.symm)
        show Function.update _ thread _ t = _
        rw [Function.update_of_ne hne, hwaiting]
      · obtain rfl := Option.some.inj ht
        rw [if_pos hfull]
        exact Function.update_self ..
    · next hnot =>
      refine ⟨rfl, rfl, fun t _ => by rw [hwaiting], fun t ht => ?_⟩
      obtain rfl := Option.some.inj ht
      rw [hwaiting, if_neg hnot, hnone]
  · exact absurd h (by simp)

lemma wake_asked {W : ℤ} {s s' : State} {thread : ℕ} {m : String} {g : ℕ} {now : ℤ}
    (hw : s.waiting thread = some (m, g)) (h : wake W thread now s = some s') :
    Asked W s s' (.wake thread now) m (some g) now := by
  have hnotifies : notifies W s (.wake thread now) = rolls W now (s.groups g) := by
    rw [notifies, hw]
    rfl
  simp only [wake, hw] at h
  obtain rfl := Option.some.inj h
  have hwaiting := check_waiting W s m (some g) now
  split
  · next hfull =>
    refine ⟨rfl, hnotifies, fun t _ => by rw [hwaiting], fun t ht => ?_⟩
    obtain rfl := Option.some.inj ht
    rw [hwaiting, if_pos hfull, hw]
    rfl
  · next hnot =>
    refine ⟨rfl, hnotifies, fun t ht => ?_, fun t ht => ?_⟩
    · have hne : t ≠ thread := fun h => ht (congrArg some h.symm)
      show Function.update _ thread _ t = _
      rw [Function.update_of_ne hne, hwaiting]
    · obtain rfl := Option.some.inj ht
      rw [if_neg hnot]
      exact Function.update_self ..

/-- A section reconfigures the limiter and notifies, or asks for a slot. -/
lemma asked_cases {W : ℤ} {s s' : State} {a : Action} (h : step W s a = some s') :
    (a.caller? = none ∧ notifies W s a = true ∧ s'.waiting = s.waiting) ∨
    ∃ m group now, Asked W s s' a m group now := by
  cases a with
  | configure tariff =>
    obtain rfl := Option.some.inj h
    exact Or.inl ⟨rfl, rfl, (configure_reconfigures tariff s).waiting⟩
  | setLimit methods perMinute =>
    obtain rfl := Option.some.inj h
    exact Or.inl ⟨rfl, rfl, rfl⟩
  | tryAcquire m now =>
    obtain rfl := Option.some.inj h
    refine Or.inr ⟨m, s.byMethod[m]?, now, rfl, rfl, fun t _ => ?_, fun t ht => ?_⟩
    · exact congrFun (check_waiting W s m s.byMethod[m]? now) t
    · exact absurd ht (by simp [Action.caller?])
  | acquire thread m now => exact Or.inr ⟨m, _, now, acquire_asked h⟩
  | wake thread now =>
    obtain ⟨m, g, -, hw, -⟩ := wake_cases h
    exact Or.inr ⟨m, some g, now, wake_asked hw h⟩

/-! ## Runs -/

/-- The sleep of a caller is still right: it was notified, or it ends with the current window of the
group, and that window is full. -/
def Sleep.Watches (W : ℤ) (z : Sleep) (g : Group) : Prop :=
  z.notified = false → z.deadline = g.windowStart + W ∧ 0 < g.limit ∧ g.limit ≤ g.count

/-- The sleeping callers are the waiting ones, and they watch the group they wait on. -/
structure Watched (W : ℤ) (s : Monitor) : Prop where
  sleeping : ∀ t m g, s.limiter.waiting t = some (m, g) →
    ∃ z, s.sleeps t = some z ∧ z.Watches W (s.limiter.groups g)
  awake : ∀ t, s.limiter.waiting t = none → s.sleeps t = none

/-- After `cv_.notify_all()` every sleep is right. -/
lemma Watched.notifyAll {W : ℤ} {s : Monitor} (h : Watched W s) (groups : ℕ → Group) {t : ℕ}
    {m : String} {g : ℕ} (hw : s.limiter.waiting t = some (m, g)) :
    ∃ z, notifyAll s.sleeps t = some z ∧ z.Watches W (groups g) := by
  obtain ⟨z, hz, -⟩ := h.sleeping t m g hw
  refine ⟨{ z with notified := true }, by rw [RateLimiter.notifyAll, hz]; rfl, ?_⟩
  intro hnot
  exact absurd hnot (by simp)

/-- A check without a notification leaves every sleep right: it takes a slot only from a window with
room, and there nobody sleeps who was not notified. -/
lemma Sleep.Watches.check {W : ℤ} {s : State} {m : String} {group : Option ℕ} {now : ℤ}
    (hquiet : (group.any fun g => rolls W now (s.groups g)) = false) {z : Sleep} {g : ℕ}
    (h : z.Watches W (s.groups g)) :
    z.Watches W ((check W s m group now).1.groups g) := by
  rcases check_cases W s m group now with ⟨-, hcheck⟩ |
    ⟨g', hg', hpos, ⟨hdue, -⟩ | ⟨-, hlt, hcheck⟩ | ⟨-, -, hcheck⟩⟩
  · rw [hcheck]
    exact h
  · -- a window that is due is opened with a notification
    rw [hg'] at hquiet
    exact absurd hquiet (by simp [rolls, hpos, hdue])
  · rw [hcheck]
    by_cases hg : g = g'
    · intro hnot
      obtain ⟨-, -, hfull⟩ := h hnot
      rw [hg] at hfull
      exact absurd hlt (not_lt.mpr hfull)
    · show z.Watches W (Function.update s.groups g' _ g)
      rw [Function.update_of_ne hg]
      exact h
  · rw [hcheck]
    exact h

/-- A caller goes to sleep on a full group, until the end of its window. -/
lemma Asked.goesToSleep {W : ℤ} {s s' : State} {a : Action} {m : String} {group : Option ℕ}
    {now : ℤ} (h : Asked W s s' a m group now) {t : ℕ} (ht : a.caller? = some t) {m' : String}
    {g : ℕ} (hw : s'.waiting t = some (m', g)) :
    ∃ z, waitUntil W s' t = some z ∧ z.Watches W (s'.groups g) := by
  refine ⟨_, by rw [waitUntil, hw]; rfl, fun _ => ⟨rfl, ?_⟩⟩
  have hcaller := h.caller t ht
  rw [hw] at hcaller
  rw [h.groups]
  rcases check_cases W s m group now with ⟨-, hcheck⟩ |
    ⟨g', hg', hpos, ⟨-, hcheck⟩ | ⟨-, -, hcheck⟩ | ⟨-, hfull, hcheck⟩⟩
  · rw [hcheck] at hcaller
    exact absurd hcaller (by simp)
  · rw [hcheck] at hcaller
    exact absurd hcaller (by simp)
  · rw [hcheck] at hcaller
    exact absurd hcaller (by simp)
  · rw [hcheck, hg'] at hcaller
    obtain ⟨-, rfl⟩ := Prod.mk.inj (Option.some.inj hcaller)
    rw [hcheck]
    exact ⟨hpos, hfull⟩

lemma watched_step {W : ℤ} {s s' : Monitor} {a : Action} (h : Watched W s)
    (hs : monitorStep W s a = some s') : Watched W s' := by
  obtain ⟨hstep, hsleeps⟩ := monitorStep_cases hs
  rcases asked_cases hstep with ⟨hcaller, hnotifies, hwaiting⟩ | ⟨m, group, now, hasked⟩
  · -- everybody is notified
    refine ⟨fun t m g hw => ?_, fun t hw => ?_⟩
    · rw [hwaiting] at hw
      rw [hsleeps, hcaller, if_neg (by simp), told, if_pos hnotifies]
      exact h.notifyAll _ hw
    · rw [hwaiting] at hw
      rw [hsleeps, hcaller, if_neg (by simp), told, if_pos hnotifies, notifyAll, h.awake t hw]
      rfl
  · refine ⟨fun t m' g hw => ?_, fun t hw => ?_⟩
    · rw [hsleeps]
      by_cases ht : a.caller? = some t
      · rw [if_pos ht]
        exact hasked.goesToSleep ht hw
      · rw [hasked.others t ht] at hw
        rw [if_neg ht, hasked.groups, told]
        cases hquiet : notifies W s.limiter a with
        | true => exact h.notifyAll _ hw
        | false =>
          obtain ⟨z, hz, hwatches⟩ := h.sleeping t m' g hw
          exact ⟨z, hz, hwatches.check (hasked.notifies.symm.trans hquiet)⟩
    · rw [hsleeps]
      by_cases ht : a.caller? = some t
      · rw [if_pos ht, waitUntil, hw]
        rfl
      · rw [hasked.others t ht] at hw
        rw [if_neg ht, told]
        split
        · rw [notifyAll, h.awake t hw]
          rfl
        · exact h.awake t hw

lemma watched_of_reachable {W : ℤ} {ok : Monitor → Action → Prop} {s : Monitor}
    (h : Reachable (monitor W) ok s) : Watched W s := by
  have hinit : Watched W (monitor W).init :=
    ⟨fun t m g hw => absurd hw (by simp [monitor]), fun _ _ => rfl⟩
  exact h.invariant hinit fun _ _ _ _ hi _ hs => watched_step hi hs

/-- A caller that is woken too early goes back to sleep. -/
lemma wake_of_full {W : ℤ} {s : State} {thread : ℕ} {m : String} {g : ℕ} {now : ℤ}
    (hw : s.waiting thread = some (m, g)) (h : Full W now (s.groups g)) :
    step W s (.wake thread now) = some { s with trace := s.trace ++ [.full m g now] } := by
  simp only [step, wake, hw, check_of_full h, if_true]

/-- A caller that finds a slot is admitted. -/
lemma wake_of_not_full {W : ℤ} {s : State} {thread : ℕ} {m : String} {g : ℕ} {now : ℤ}
    (hw : s.waiting thread = some (m, g)) (h : ¬ Full W now (s.groups g)) :
    ∃ s', step W s (.wake thread now) = some s' ∧ s'.waiting thread = none ∧ Admits s' m := by
  have hout : (check W s m (some g) now).2 ≠ .full := by
    intro hfull
    rcases check_cases W s m (some g) now with ⟨-, hcheck⟩ |
      ⟨g', hg', hpos, ⟨-, hcheck⟩ | ⟨-, -, hcheck⟩ | ⟨hwindow, hcount, -⟩⟩
    · rw [hcheck] at hfull
      exact absurd hfull (by simp)
    · rw [hcheck] at hfull
      exact absurd hfull (by simp)
    · rw [hcheck] at hfull
      exact absurd hfull (by simp)
    · obtain rfl := Option.some.inj hg'
      exact h ⟨hpos, hwindow, hcount⟩
  have hwake : step W s (.wake thread now) = some { (check W s m (some g) now).1 with
      waiting := Function.update (check W s m (some g) now).1.waiting thread none } := by
    simp only [step, wake, hw, if_neg hout]
  exact ⟨_, hwake, Function.update_self .., check_of_not_full h⟩

/-- **No caller sleeps while there is a slot for it.** In every run of the limiter, with any clock,
any reconfigurations and any wakeups, for every caller that is blocked in `acquire` and was not
notified since it went to sleep: its deadline is the end of the current window of its group; were
it woken before, it would find the group full and go back to sleep; and woken at its deadline or
later it is admitted. -/
theorem sleepers_not_late {W : ℤ} {ok : Monitor → Action → Prop} {s : Monitor}
    (h : Reachable (monitor W) ok s) {thread : ℕ} {m : String} {g : ℕ}
    (hw : s.limiter.waiting thread = some (m, g)) :
    ∃ z, s.sleeps thread = some z ∧ (z.notified = false →
      z.deadline = (s.limiter.groups g).windowStart + W ∧
      (∀ now < z.deadline, step W s.limiter (.wake thread now)
        = some { s.limiter with trace := s.limiter.trace ++ [.full m g now] }) ∧
      ∀ now, z.deadline ≤ now → ∃ s', step W s.limiter (.wake thread now) = some s' ∧
        s'.waiting thread = none ∧ Admits s' m) := by
  obtain ⟨z, hz, hwatches⟩ := (watched_of_reachable h).sleeping thread m g hw
  refine ⟨z, hz, fun hnot => ?_⟩
  obtain ⟨hdeadline, hpos, hge⟩ := hwatches hnot
  refine ⟨hdeadline, fun now hlt => ?_, fun now hle => ?_⟩
  · exact wake_of_full hw ⟨hpos, by omega, hge⟩
  · refine wake_of_not_full hw fun hfull => ?_
    have hlt := hfull.2.1
    omega

/-- A caller that is woken by a reconfiguration, finds its group still full and goes back to
sleep. -/
theorem sleepers_not_late_woken :
    ∃ s, Reachable (monitor 60) (fun _ _ => True) s ∧
      s.limiter.waiting 1 = some ("m", 0) ∧ s.sleeps 1 = some ⟨160, false⟩ ∧
      ∃ s', step 60 s.limiter (.wake 1 160) = some s' ∧ s'.waiting 1 = none ∧ Admits s' "m" := by
  obtain ⟨s, hs, hp⟩ := exists_reachable_of_run (monitor 60) (fun _ _ => True)
    (fun s => decide (s.limiter.waiting 1 = some ("m", 0) ∧ s.sleeps 1 = some ⟨160, false⟩))
    [.setLimit ["m"] 1, .acquire 0 "m" 100, .acquire 1 "m" 110, .setLimit ["n"] 1, .wake 1 120,
      .tryAcquire "m" 130]
    (by decide +kernel)
  obtain ⟨hw, hsleep⟩ := of_decide_eq_true hp
  obtain ⟨z, hz, hlate⟩ := sleepers_not_late hs hw
  have hz' : z = ⟨160, false⟩ := Option.some.inj (hz.symm.trans hsleep)
  rw [hz'] at hlate
  exact ⟨s, hs, hw, hsleep, (hlate rfl).2.2 160 le_rfl⟩

end RateLimiter
end TInvest
