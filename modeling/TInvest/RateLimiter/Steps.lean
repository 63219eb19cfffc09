import TInvest.Lib.FixedWindow
import TInvest.RateLimiter.Basic

/-!
# The sections of the rate limiter

* `check_cases`, `step_cases` — what a check and a section can do;
* `marks`, `Group.counter` — a group object with its part of the trace is a fixed-window counter
  with its log: `check_counter` says that a check is one request to it;
* `groups_invariant` — so what holds of a fresh counter and is kept by a request holds of every
  group object in every run, whatever `configure` and `set_limit` do.
-/

namespace TInvest
namespace RateLimiter

open Lib.MapFold
open Lib.Transition
open Lib.FixedWindow

/-! ## Checks -/

/-- What a check can do: pass, open a window and enter it, enter the current one, or find it
full. -/
lemma check_cases (W : ℤ) (s : State) (m : String) (group : Option ℕ) (now : ℤ) :
    ((∀ g ∈ group, (s.groups g).limit ≤ 0) ∧ check W s m group now =
      ({ s with trace := s.trace ++ [.admitted m s.byMethod[m]? none now] }, .unlimited)) ∨
    ∃ g, group = some g ∧ 0 < (s.groups g).limit ∧
      ((W ≤ now - (s.groups g).windowStart ∧ check W s m group now =
        ({ s with
            groups := Function.update s.groups g ⟨(s.groups g).limit, 1, now⟩
            trace := s.trace ++ [.opened g now, .admitted m s.byMethod[m]? (some g) now] },
          .admitted)) ∨
      (now - (s.groups g).windowStart < W ∧ ((s.groups g).count : ℤ) < (s.groups g).limit ∧
        check W s m group now =
          ({ s with
              groups := Function.update s.groups g
                { s.groups g with count := (s.groups g).count + 1 }
              trace := s.trace ++ [.admitted m s.byMethod[m]? (some g) now] },
            .admitted)) ∨
      (now - (s.groups g).windowStart < W ∧ (s.groups g).limit ≤ (s.groups g).count ∧
        check W s m group now = ({ s with trace := s.trace ++ [.full m g now] }, .full))) := by
  cases group with
  | none => exact Or.inl ⟨by simp, rfl⟩
  | some g =>
    rcases le_or_gt (s.groups g).limit 0 with hun | hpos
    · left
      have hnot : ¬ 0 < (s.groups g).limit := not_lt.mpr hun
      refine ⟨by simpa using hun, ?_⟩
      simp only [check, enterEvents, enter, if_pos hun, Function.update_eq_self, hnot, false_and,
        if_false, List.nil_append]
    · right
      refine ⟨g, rfl, hpos, ?_⟩
      have hlim : ¬ (s.groups g).limit ≤ 0 := not_le.mpr hpos
      rcases le_or_gt W (now - (s.groups g).windowStart) with hdue | hnot
      · left
        refine ⟨hdue, ?_⟩
        simp only [check, enterEvents, enter, rollWindow, if_neg hlim, hpos, hdue, and_self,
          if_true, Nat.cast_zero, Nat.zero_add]
        rfl
      · right
        have hdue : ¬ W ≤ now - (s.groups g).windowStart := not_le.mpr hnot
        rcases lt_or_ge ((s.groups g).count : ℤ) (s.groups g).limit with hlt | hge
        · left
          refine ⟨hnot, hlt, ?_⟩
          simp only [check, enterEvents, enter, rollWindow, if_neg hlim, if_pos hlt, hdue,
            and_false, if_false, List.nil_append]
        · right
          refine ⟨hnot, hge, ?_⟩
          simp only [check, enterEvents, enter, rollWindow, if_neg hlim,
            if_neg (not_lt.mpr hge), hdue, and_false, if_false, List.nil_append,
            Function.update_eq_self]

/-- The events of a check of the method `m` on `group`. -/
def Recorded (s : State) (m : String) (group : Option ℕ) (now : ℤ) : Event → Prop
  | .reconfigured => False
  | .opened g t => group = some g ∧ t = now
  | .admitted m' inForce charged t => m' = m ∧ inForce = s.byMethod[m]? ∧ t = now ∧
      (charged = group ∧ group ≠ none ∨ charged = none ∧ ∀ g ∈ group, (s.groups g).limit ≤ 0)
  | .full m' g t => m' = m ∧ group = some g ∧ t = now

/-- A check records at least one event. -/
lemma check_trace (W : ℤ) (s : State) (m : String) (group : Option ℕ) (now : ℤ) :
    ∃ es, es ≠ [] ∧ (check W s m group now).1.trace = s.trace ++ es ∧
      ∀ e ∈ es, Recorded s m group now e := by
  rcases check_cases W s m group now with ⟨hun, hcheck⟩ |
    ⟨g, hg, -, ⟨-, hcheck⟩ | ⟨-, -, hcheck⟩ | ⟨-, -, hcheck⟩⟩ <;> rw [hcheck]
  · refine ⟨_, by simp, rfl, fun e he => ?_⟩
    rw [List.mem_singleton.mp he]
    exact ⟨rfl, rfl, rfl, Or.inr ⟨rfl, hun⟩⟩
  · exact ⟨_, by simp, rfl, by simp [Recorded, hg]⟩
  · exact ⟨_, by simp, rfl, by simp [Recorded, hg]⟩
  · exact ⟨_, by simp, rfl, by simp [Recorded, hg]⟩

/-- The method and the group of a caller: the table's for a new one, its own for a woken one. -/
def Asks (s : State) (m : String) (group : Option ℕ) : Action → Prop
  | .configure _ => False
  | .setLimit _ _ => False
  | .tryAcquire method _ => method = m ∧ group = s.byMethod[m]?
  | .acquire _ method _ => method = m ∧ group = s.byMethod[m]?
  | .wake thread _ => ∃ g, s.waiting thread = some (m, g) ∧ group = some g

/-- Only a woken caller brings a group of its own. -/
lemma asks_cases {s : State} {a : Action} {m : String} {group : Option ℕ} (h : Asks s m group a) :
    group = s.byMethod[m]? ∨
    ∃ thread now g, a = .wake thread now ∧ s.waiting thread = some (m, g) ∧ group = some g := by
  cases a with
  | configure tariff => exact h.elim
  | setLimit methods perMinute => exact h.elim
  | tryAcquire method now => exact Or.inl h.2
  | acquire thread method now => exact Or.inl h.2
  | wake thread now =>
    obtain ⟨g, hw, hgroup⟩ := h
    exact Or.inr ⟨thread, now, g, rfl, hw, hgroup⟩

/-- What `configure` and `set_limit` have in common: groups are added with nothing charged, the
table holds old groups or added ones, and the callers keep theirs. -/
structure Reconfigures (s s' : State) : Prop where
  next : s.nextGroup ≤ s'.nextGroup
  old : ∀ g < s.nextGroup, s'.groups g = s.groups g
  new : ∀ g, s.nextGroup ≤ g → g < s'.nextGroup → ∃ n, s'.groups g = { limit := n }
  beyond : ∀ g, s'.nextGroup ≤ g → s'.groups g = s.groups g
  table : ∀ (m : String) (g : ℕ), s'.byMethod[m]? = some g →
    s.byMethod[m]? = some g ∨ s.nextGroup ≤ g ∧ g < s'.nextGroup
  waiting : s'.waiting = s.waiting

lemma Reconfigures.trans {s s' s'' : State} (h : Reconfigures s s') (h' : Reconfigures s' s'') :
    Reconfigures s s'' where
  next := h.next.trans h'.next
  old := by
    intro g hg
    rw [h'.old g (hg.trans_le h.next), h.old g hg]
  new := by
    intro g hle hlt
    rcases lt_or_ge g s'.nextGroup with hg | hg
    · obtain ⟨n, hn⟩ := h.new g hle hg
      exact ⟨n, by rw [h'.old g hg, hn]⟩
    · exact h'.new g hg hlt
  beyond := by
    intro g hg
    rw [h'.beyond g hg, h.beyond g (h'.next.trans hg)]
  table := by
    intro m g hg
    have hnext := h.next
    have hnext' := h'.next
    rcases h'.table m g hg with hold | hnew
    · rcases h.table m g hold with hold | hnew
      · exact Or.inl hold
      · exact Or.inr ⟨hnew.1, by omega⟩
    · exact Or.inr ⟨by omega, hnew.2⟩
  waiting := h'.waiting.trans h.waiting

lemma addGroup_reconfigures (methods : List String) (limit : ℤ) (s : State) :
    Reconfigures s (addGroup methods limit s) where
  next := Nat.le_succ _
  old := fun g hg => Function.update_of_ne hg.ne _ _
  new := by
    intro g hle hlt
    have hg : g = s.nextGroup := by
      simp only [addGroup] at hlt
      omega
    exact ⟨limit, by rw [hg]; exact Function.update_self ..⟩
  beyond := by
    intro g hg
    simp only [addGroup] at hg
    exact Function.update_of_ne (by omega) _ _
  table := by
    intro m g hg
    simp only [addGroup] at hg ⊢
    by_cases hmem : m ∈ methods.map normalize
    · obtain ⟨j, hj⟩ := exists_isLastIndex hmem
      rw [getElem?_insertEach_of_last s.byMethod _ hj] at hg
      have hval := Option.some.inj hg
      exact Or.inr ⟨by omega, by omega⟩
    · rw [getElem?_insertEach_of_notMem s.byMethod _ hmem] at hg
      exact Or.inl hg
  waiting := rfl

lemma addGroups_reconfigures (tariff : Tariff) (s : State) :
    Reconfigures s (addGroups tariff s) := by
  induction tariff generalizing s with
  | nil =>
    exact ⟨le_rfl, fun _ _ => rfl, fun g hle hlt => absurd hle (not_le.mpr hlt), fun _ _ => rfl,
      fun _ _ hg => Or.inl hg, rfl⟩
  | cons ul tariff ih =>
    exact (addGroup_reconfigures ul.methods ul.limitPerMinute s).trans (ih _)

lemma addGroups_trace (tariff : Tariff) (s : State) : (addGroups tariff s).trace = s.trace := by
  induction tariff generalizing s with
  | nil => rfl
  | cons ul tariff ih => exact ih _

lemma configure_reconfigures (tariff : Tariff) (s : State) :
    Reconfigures s (configure tariff s) := by
  have h := addGroups_reconfigures tariff { s with byMethod := ∅ }
  refine ⟨h.next, h.old, h.new, h.beyond, ?_, h.waiting⟩
  intro m g hg
  rcases h.table m g hg with hold | hnew
  · exact absurd hold (by simp)
  · exact Or.inr hnew

/-! ## Sections -/

lemma check_waiting (W : ℤ) (s : State) (m : String) (group : Option ℕ) (now : ℤ) :
    (check W s m group now).1.waiting = s.waiting := by
  cases group <;> rfl

/-- A caller is left waiting only on a group it found full. -/
def Queues (W : ℤ) (s : State) (m : String) (group : Option ℕ) (now : ℤ)
    (w : ℕ → Option (String × ℕ)) : Prop :=
  ∀ t m' g', w t = some (m', g') → s.waiting t = some (m', g') ∨
    m' = m ∧ group = some g' ∧ (check W s m group now).2 = .full

/-- `acquire` is a check under the table. -/
lemma acquire_cases {W : ℤ} {s s' : State} {thread : ℕ} {m : String} {now : ℤ}
    (h : acquire W thread m now s = some s') :
    ∃ w, s' = { (check W s m s.byMethod[m]? now).1 with waiting := w } ∧
      Queues W s m s.byMethod[m]? now w := by
  simp only [acquire] at h
  split at h
  · obtain rfl := Option.some.inj h
    have hwaiting := check_waiting W s m s.byMethod[m]? now
    split
    · next hfull =>
      -- the caller goes to wait on the group it found
      refine ⟨_, rfl, fun t m' g' hw => ?_⟩
      rw [hwaiting] at hw
      by_cases ht : t = thread
      · rw [ht, Function.update_self] at hw
        obtain ⟨g, hg, hpair⟩ := Option.map_eq_some_iff.mp hw
        rw [Prod.mk.injEq] at hpair
        exact Or.inr ⟨hpair.1.symm, by rw [hg, hpair.2], hfull⟩
      · rw [Function.update_of_ne ht] at hw
        exact Or.inl hw
    · exact ⟨s.waiting, by rw [← hwaiting], fun t m' g' hw => Or.inl hw⟩
  · exact absurd h (by simp)

/-- A woken caller checks the group it brings. -/
lemma wake_cases {W : ℤ} {s s' : State} {thread : ℕ} {now : ℤ} (h : wake W thread now s = some s') :
    ∃ m g w, s.waiting thread = some (m, g) ∧
      s' = { (check W s m (some g) now).1 with waiting := w } ∧ Queues W s m (some g) now w := by
  simp only [wake] at h
  split at h
  · exact absurd h (by simp)
  · next m g hw =>
    obtain rfl := Option.some.inj h
    have hwaiting := check_waiting W s m (some g) now
    split
    · exact ⟨m, g, s.waiting, hw, by rw [← hwaiting], fun t m' g' hw' => Or.inl hw'⟩
    · refine ⟨m, g, _, hw, rfl, fun t m' g' hw' => ?_⟩
      rw [hwaiting] at hw'
      by_cases ht : t = thread
      · rw [ht, Function.update_self] at hw'
        exact absurd hw' (by simp)
      · rw [Function.update_of_ne ht] at hw'
        exact Or.inl hw'

/-- What a section can do: reconfigure the limiter, or let a caller check. -/
lemma step_cases {W : ℤ} {s s' : State} {a : Action} (h : step W s a = some s') :
    (a.now? = none ∧ Reconfigures s s' ∧ s'.trace = s.trace ++ [.reconfigured]) ∨
    ∃ m group now w, a.now? = some now ∧ Asks s m group a ∧
      s' = { (check W s m group now).1 with waiting := w } ∧ Queues W s m group now w := by
  cases a with
  | configure tariff =>
    obtain rfl := Option.some.inj h
    exact Or.inl ⟨rfl, configure_reconfigures tariff s, by simp [configure, addGroups_trace]⟩
  | setLimit methods perMinute =>
    obtain rfl := Option.some.inj h
    have hadd := addGroup_reconfigures methods perMinute s
    exact Or.inl ⟨rfl, ⟨hadd.next, hadd.old, hadd.new, hadd.beyond, hadd.table, hadd.waiting⟩, rfl⟩
  | tryAcquire m now =>
    obtain rfl := Option.some.inj h
    refine Or.inr ⟨m, _, now, s.waiting, rfl, ⟨rfl, rfl⟩, ?_, fun t m' g' hw => Or.inl hw⟩
    rw [tryAcquire, ← check_waiting W s m s.byMethod[m]? now]
  | acquire thread m now =>
    obtain ⟨w, hs', hqueues⟩ := acquire_cases h
    exact Or.inr ⟨m, _, now, w, rfl, ⟨rfl, rfl⟩, hs', hqueues⟩
  | wake thread now =>
    obtain ⟨m, g, w, hw, hs', hqueues⟩ := wake_cases h
    exact Or.inr ⟨m, some g, now, w, rfl, ⟨g, hw, rfl⟩, hs', hqueues⟩

/-! ## Group objects as counters -/

/-- A group object as a counter. -/
def Group.counter (g : Group) : Counter ℤ := ⟨g.limit.toNat, g.count, g.windowStart⟩

lemma Group.counter_limit {g : Group} (h : 0 < g.limit) : (g.counter.limit : ℤ) = g.limit := by
  simp only [Group.counter]
  omega

/-- An event of the group object `g`. -/
def Event.mark? (g : ℕ) : Event → Option (Mark ℤ)
  | .reconfigured => none
  | .opened g' now => if g' = g then some (.opened now) else none
  | .admitted _ _ charged now => if charged = some g then some (.admitted now) else none
  | .full _ g' now => if g' = g then some (.refused now) else none

/-- The log of the group object `g`. -/
def marks (g : ℕ) (trace : List Event) : List (Mark ℤ) := trace.filterMap (Event.mark? g)

lemma marks_append (g : ℕ) (l l' : List Event) : marks g (l ++ l') = marks g l ++ marks g l' :=
  List.filterMap_append

lemma marks_reconfigured (g : ℕ) (l : List Event) : marks g (l ++ [.reconfigured]) = marks g l := by
  rw [marks_append]
  exact List.append_nil _

/-- To the group objects a check is nothing, or one request to one of them. -/
lemma check_counter (W : ℤ) (s : State) (m : String) (group : Option ℕ) (now : ℤ) (g : ℕ) :
    ((check W s m group now).1.groups g = s.groups g ∧
      marks g (check W s m group now).1.trace = marks g s.trace) ∨
    (group = some g ∧ 0 < (s.groups g).limit ∧
      ((check W s m group now).1.groups g).limit = (s.groups g).limit ∧
      ((check W s m group now).1.groups g).counter = ((s.groups g).counter.step W now).1 ∧
      marks g (check W s m group now).1.trace
        = marks g s.trace ++ ((s.groups g).counter.step W now).2) := by
  rcases check_cases W s m group now with ⟨-, hcheck⟩ | ⟨g', hg', hpos, hcases⟩
  · left
    rw [hcheck]
    exact ⟨rfl, by rw [marks_append]; exact List.append_nil _⟩
  · by_cases hg : g' = g
    · right
      rw [hg] at hg' hpos hcases
      have hlimit := Group.counter_limit hpos
      have hpos' : 0 < (s.groups g).counter.limit := by omega
      refine ⟨hg', hpos, ?_⟩
      -- the three cases of the check are the three cases of the request
      rcases hcases with ⟨hdue, hcheck⟩ | ⟨hnot, hlt, hcheck⟩ | ⟨hnot, hge, hcheck⟩
      · have hstep := Counter.step_of_due (c := (s.groups g).counter) hpos' hdue
        rw [hcheck, hstep]
        simp [marks, Event.mark?, Group.counter]
      · have hroom : (s.groups g).counter.count < (s.groups g).counter.limit := by
          simp only [Group.counter]
          omega
        have hstep := Counter.step_of_room (c := (s.groups g).counter) hnot hroom
        rw [hcheck, hstep]
        simp [marks, Event.mark?, Group.counter]
      · have hfull : (s.groups g).counter.limit ≤ (s.groups g).counter.count := by
          simp only [Group.counter]
          omega
        have hstep := Counter.step_of_full (c := (s.groups g).counter) hnot hfull
        rw [hcheck, hstep]
        simp [marks, Event.mark?, Group.counter]
    · -- another object is charged
      left
      have hne : g ≠ g' := fun h => hg h.symm
      rcases hcases with ⟨-, hcheck⟩ | ⟨-, -, hcheck⟩ | ⟨-, -, hcheck⟩ <;> rw [hcheck]
      · exact ⟨Function.update_of_ne hne _ _, by simp [marks, Event.mark?, hg]⟩
      · exact ⟨Function.update_of_ne hne _ _, by simp [marks, Event.mark?, hg]⟩
      · exact ⟨rfl, by simp [marks, Event.mark?, hg]⟩

/-! ## Runs -/

/-- A check changes the groups, the trace and nothing else; limits never change. -/
lemma check_frame (W : ℤ) (s : State) (m : String) (group : Option ℕ) (now : ℤ) :
    (check W s m group now).1.byMethod = s.byMethod ∧
      (check W s m group now).1.nextGroup = s.nextGroup ∧
      ∀ g, ((check W s m group now).1.groups g).limit = (s.groups g).limit := by
  refine ⟨?_, ?_, fun g => ?_⟩
  · cases group <;> rfl
  · cases group <;> rfl
  · rcases check_counter W s m group now g with ⟨hgroup, -⟩ | ⟨-, -, hlimit, -⟩
    · rw [hgroup]
    · exact hlimit

/-- The table and the callers know only groups that were made, and a caller waits on a limited
one. -/
structure Heap (s : State) : Prop where
  table : ∀ (m : String) (g : ℕ), s.byMethod[m]? = some g → g < s.nextGroup
  callers : ∀ t m g, s.waiting t = some (m, g) → g < s.nextGroup ∧ 0 < (s.groups g).limit
  unborn : ∀ g, s.nextGroup ≤ g → s.groups g = {} ∧ marks g s.trace = []

lemma Heap.asks_lt {s : State} (h : Heap s) {a : Action} {m : String} {group : Option ℕ}
    (ha : Asks s m group a) : ∀ g ∈ group, g < s.nextGroup := by
  intro g hg
  rcases asks_cases ha with hgroup | ⟨thread, now, g', -, hw, hgroup⟩ <;> rw [hgroup] at hg
  · exact h.table m g hg
  · obtain rfl := Option.some.inj hg
    exact (h.callers thread m g' hw).1

lemma heap_step {W : ℤ} {s s' : State} {a : Action} (h : Heap s) (hs : step W s a = some s') :
    Heap s' := by
  rcases step_cases hs with ⟨-, hre, htrace⟩ | ⟨m, group, now, w, -, hasks, rfl, hw⟩
  · refine ⟨fun m g hg => ?_, fun t m g ht => ?_, fun g hg => ?_⟩
    · rcases hre.table m g hg with hold | hnew
      · exact (h.table m g hold).trans_le hre.next
      · exact hnew.2
    · rw [hre.waiting] at ht
      obtain ⟨hlt, hpos⟩ := h.callers t m g ht
      exact ⟨hlt.trans_le hre.next, by rw [hre.old g hlt]; exact hpos⟩
    · have hborn := h.unborn g (hre.next.trans hg)
      rw [hre.beyond g hg, htrace, marks_reconfigured]
      exact hborn
  · obtain ⟨hby, hnext, hlimit⟩ := check_frame W s m group now
    have hlt := h.asks_lt hasks
    refine ⟨fun m' g hg => ?_, fun t m' g ht => ?_, fun g hg => ?_⟩
    · show g < (check W s m group now).1.nextGroup
      rw [hnext]
      exact h.table m' g (by rw [← hby]; exact hg)
    · show g < (check W s m group now).1.nextGroup ∧ 0 < ((check W s m group now).1.groups g).limit
      rw [hnext, hlimit]
      rcases hw t m' g ht with hold | ⟨-, hgroup, hfull⟩
      · exact h.callers t m' g hold
      · -- only a limited group can be full
        rcases check_cases W s m group now with ⟨-, hcheck⟩ | ⟨g', hg', hpos, -⟩
        · rw [hcheck] at hfull
          exact absurd hfull (by simp)
        · rw [hgroup] at hg'
          obtain rfl := Option.some.inj hg'
          exact ⟨hlt g hgroup, hpos⟩
    · have hge : s.nextGroup ≤ g := by rw [← hnext]; exact hg
      rcases check_counter W s m group now g with ⟨hgroup, hmarks⟩ | ⟨hgroup, -⟩
      · show (check W s m group now).1.groups g = {} ∧ marks g (check W s m group now).1.trace = []
        rw [hgroup, hmarks]
        exact h.unborn g hge
      · exact absurd (hlt g hgroup) (not_lt.mpr hge)

lemma heap_of_reachable {W : ℤ} {ok : State → Action → Prop} {s : State}
    (h : Reachable (limiter W) ok s) : Heap s := by
  have hinit : Heap (limiter W).init :=
    ⟨fun m g hg => absurd hg (by simp [limiter]), fun t m g ht => absurd ht (by simp [limiter]),
      fun g _ => ⟨rfl, rfl⟩⟩
  exact h.invariant hinit fun _ _ _ _ hi _ hs => heap_step hi hs

/-- **The rule for group objects.** What a fresh counter has and a request keeps, every group object
has in every run. -/
theorem groups_invariant {W : ℤ} {ok : State → Action → Prop}
    {P : Counter ℤ → List (Mark ℤ) → Prop} (hfresh : ∀ n, P ⟨n, 0, 0⟩ [])
    (hstep : ∀ s a now g, ok s a → a.now? = some now → 0 < (s.groups g).counter.limit →
      P (s.groups g).counter (marks g s.trace) →
      P ((s.groups g).counter.step W now).1
        (marks g s.trace ++ ((s.groups g).counter.step W now).2))
    {s : State} (h : Reachable (limiter W) ok s) (g : ℕ) :
    P (s.groups g).counter (marks g s.trace) := by
  refine h.invariant (I := fun s => ∀ g, P (s.groups g).counter (marks g s.trace))
    (fun g => hfresh 0) ?_ g
  intro s a s' hr hi hok hs g
  have hheap := heap_of_reachable hr
  rcases step_cases hs with ⟨-, hre, htrace⟩ | ⟨m, group, now, w, hnow, hasks, rfl, -⟩
  · rw [htrace, marks_reconfigured]
    rcases lt_or_ge g s.nextGroup with hlt | hge
    · rw [hre.old g hlt]
      exact hi g
    · rcases lt_or_ge g s'.nextGroup with hlt' | hge'
      · -- a group that was just made has no log yet
        obtain ⟨n, hn⟩ := hre.new g hge hlt'
        rw [hn, (hheap.unborn g hge).2]
        exact hfresh n.toNat
      · rw [hre.beyond g hge']
        exact hi g
  · rcases check_counter W s m group now g with ⟨hgroup, hmarks⟩ | ⟨-, hpos, -, hcounter, hmarks⟩
    · show P ((check W s m group now).1.groups g).counter (marks g (check W s m group now).1.trace)
      rw [hgroup, hmarks]
      exact hi g
    · show P ((check W s m group now).1.groups g).counter (marks g (check W s m group now).1.trace)
      rw [hcounter, hmarks]
      have hlimit := Group.counter_limit hpos
      exact hstep s a now g hok hnow (by omega) (hi g)

/-- The count of a group object is what was charged to it since its window was opened. -/
lemma counted_of_reachable {W : ℤ} {ok : State → Action → Prop} {s : State}
    (h : Reachable (limiter W) ok s) (g : ℕ) : Counted (s.groups g).counter (marks g s.trace) :=
  groups_invariant (fun n => counted_fresh n 0)
    (fun _ _ now _ _ _ hpos hi => hi.step hpos W now) h g

/-! ## The clock -/

/-- The reading an event was made with. -/
def Event.time? : Event → Option ℤ
  | .reconfigured => none
  | .opened _ now => some now
  | .admitted _ _ _ now => some now
  | .full _ _ now => some now

lemma recorded_time {s : State} {m : String} {group : Option ℕ} {now : ℤ} {e : Event}
    (h : Recorded s m group now e) : ∀ t ∈ e.time?, t = now := by
  intro t ht
  cases e with
  | reconfigured => exact h.elim
  | opened g t' =>
    obtain rfl := Option.some.inj ht
    exact h.2
  | admitted m' inForce charged t' =>
    obtain rfl := Option.some.inj ht
    exact h.2.2.1
  | full m' g t' =>
    obtain rfl := Option.some.inj ht
    exact h.2.2

/-- The readings do not go back and are at least a window past the epoch. -/
def Clocked (W : ℤ) (s : State) (a : Action) : Prop :=
  ∀ now ∈ a.now?, W ≤ now ∧ ∀ e ∈ s.trace, ∀ t ∈ e.time?, t ≤ now

instance (W : ℤ) (s : State) (a : Action) : Decidable (Clocked W s a) :=
  match h : a.now? with
  | none => isTrue fun now hnow => by simp [h] at hnow
  | some now =>
    decidable_of_iff (W ≤ now ∧ ∀ e ∈ s.trace, ∀ t ∈ e.time?, t ≤ now) (by simp [Clocked, h])

/-- The time at which an event charges the group object `g`. -/
def Event.charge? (g : ℕ) : Event → Option ℤ
  | .admitted _ _ charged now => if charged = some g then some now else none
  | _ => none

/-- The admissions in the log of a group object are the charges to it. -/
lemma admissions_marks (g : ℕ) (trace : List Event) :
    admissions (marks g trace) = trace.filterMap (Event.charge? g) := by
  rw [admissions, marks, List.filterMap_filterMap]
  refine List.filterMap_congr fun e _ => ?_
  cases e with
  | reconfigured => rfl
  | opened g' now => by_cases hg : g' = g <;> simp [Event.mark?, Event.charge?, hg]
  | full m g' now => by_cases hg : g' = g <;> simp [Event.mark?, Event.charge?, hg]
  | admitted m inForce charged now =>
    by_cases hg : charged = some g <;> simp [Event.mark?, Event.charge?, hg]

lemma mem_admissions_marks {g : ℕ} {trace : List Event} {t : ℤ}
    (h : t ∈ admissions (marks g trace)) :
    ∃ m inForce, Event.admitted m inForce (some g) t ∈ trace := by
  rw [admissions_marks, List.mem_filterMap] at h
  obtain ⟨e, he, ht⟩ := h
  cases e with
  | reconfigured => exact absurd ht (by simp [Event.charge?])
  | opened g' now => exact absurd ht (by simp [Event.charge?])
  | full m g' now => exact absurd ht (by simp [Event.charge?])
  | admitted m inForce charged now =>
    rw [Event.charge?] at ht
    split at ht
    · next hcharged =>
      obtain rfl := Option.some.inj ht
      exact ⟨m, inForce, by rw [← hcharged]; exact he⟩
    · exact absurd ht (by simp)

/-- With such a clock every group object is a timed counter. -/
lemma timed_of_reachable {W : ℤ} {ok : State → Action → Prop}
    (hclock : ∀ s a, ok s a → Clocked W s a) {s : State} (h : Reachable (limiter W) ok s) (g : ℕ) :
    Timed W (s.groups g).counter (marks g s.trace) := by
  refine groups_invariant (fun n => timed_fresh W n) ?_ h g
  intro s a now g hok hnow hpos hi
  obtain ⟨hW, hle⟩ := hclock s a hok now hnow
  refine hi.step hpos hW fun t ht => ?_
  obtain ⟨m, inForce, he⟩ := mem_admissions_marks ht
  exact hle _ he t rfl

end RateLimiter
end TInvest
