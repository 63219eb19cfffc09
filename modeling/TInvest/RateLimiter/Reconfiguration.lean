import TInvest.RateLimiter.Windows

/-!
# Callers that wait across a reconfiguration

`configure` and `set_limit` put new groups into the table and wake the blocked callers, but a
blocked `acquire` looked its group up before it went to wait and re-checks that one.

* `ChargesInForce`, `LimitKept` — what a limiter owes when the table changes under its callers;
* `charges_in_force_of_agrees` — it holds of every run in which the group that a woken caller
  re-checks is the one in the table, or answers as the table would, and of no other section;
* `stale_caller_overruns` — and not of every run.
-/

namespace TInvest
namespace RateLimiter

open Lib.Transition
open Lib.FixedWindow

/-- The section ends with `acquire` or `try_acquire` letting `m` through. -/
def Admits (s' : State) (m : String) : Prop :=
  ∃ inForce charged now, s'.trace.getLast? = some (.admitted m inForce charged now)

/-- The section ends with an admission that is charged to `g`: it is recorded so, and the group is
the one before, its window opened if it was over, with one call more. -/
def ChargedTo (W now : ℤ) (s : State) (m : String) (g : ℕ) (s' : State) : Prop :=
  s'.trace.getLast? = some (.admitted m (some g) (some g) now) ∧
    s'.groups g = { rollWindow W now (s.groups g) with
      count := (rollWindow W now (s.groups g)).count + 1 }

/-- An admission is charged to the group the table holds, if that one is limited; and a woken caller
whose method is not limited by the table is admitted. -/
def ChargesInForce (W : ℤ) (s : State) (a : Action) (s' : State) : Prop :=
  (∀ m group now g, Asks s m group a → a.now? = some now → Admits s' m →
    s.byMethod[m]? = some g → 0 < (s.groups g).limit → ChargedTo W now s m g s') ∧
  ∀ thread now m g, a = .wake thread now → s.waiting thread = some (m, g) →
    (∀ g', s.byMethod[m]? = some g' → (s.groups g').limit ≤ 0) → Admits s' m

/-- The admissions of methods that the table held under the group object `g`. -/
def underGroup (g : ℕ) (_ : String) (inForce : Option ℕ) : Bool := inForce == some g

/-- Between two reconfigurations and two openings of its window, at most as many calls of the
methods of a limited group are admitted as its limit says. -/
def LimitKept (s : State) : Prop :=
  ∀ g, 0 < (s.groups g).limit → ∀ pre seg post, s.trace = pre ++ (seg ++ post) →
    Event.reconfigured ∉ seg → (∀ t, Event.opened g t ∉ seg) →
    ((admittedTimes (underGroup g) seg).length : ℤ) ≤ (s.groups g).limit

/-- The table limits the method. -/
def Limited (s : State) (m : String) : Prop := ∃ g ∈ s.byMethod[m]?, 0 < (s.groups g).limit

/-- The group has no slot at the reading `now`. -/
def Full (W now : ℤ) (g : Group) : Prop :=
  0 < g.limit ∧ now - g.windowStart < W ∧ g.limit ≤ g.count

/-- A woken caller waits on the group that the table holds for its method, or on one that is full
exactly when the table limits the method. -/
def Agrees (W : ℤ) (s : State) : Action → Prop
  | .wake thread now => ∀ p ∈ s.waiting thread,
      s.byMethod[p.1]? = some p.2 ∨ (Limited s p.1 ↔ Full W now (s.groups p.2))
  | _ => True

instance (s : State) (m : String) : Decidable (Limited s m) :=
  decidable_of_iff (s.byMethod[m]?.any (fun g => 0 < (s.groups g).limit) = true)
    (by simp [Limited, Option.any_eq_true])

instance (W now : ℤ) (g : Group) : Decidable (Full W now g) := inferInstanceAs (Decidable (_ ∧ _))

instance (W : ℤ) (s : State) (a : Action) : Decidable (Agrees W s a) :=
  match a with
  | .configure _ => isTrue trivial
  | .setLimit _ _ => isTrue trivial
  | .tryAcquire _ _ => isTrue trivial
  | .acquire _ _ _ => isTrue trivial
  | .wake thread now =>
    inferInstanceAs (Decidable (∀ p ∈ s.waiting thread,
      s.byMethod[p.1]? = some p.2 ∨ (Limited s p.1 ↔ Full W now (s.groups p.2))))

/-- Then a caller asks under the table, or is turned away exactly when the table limits it. -/
lemma Agrees.asks {W : ℤ} {s : State} {a : Action} (h : Agrees W s a) {m : String}
    {group : Option ℕ} {now : ℤ} (ha : Asks s m group a) (hnow : a.now? = some now) :
    group = s.byMethod[m]? ∨ ∃ g, group = some g ∧ (Limited s m ↔ Full W now (s.groups g)) := by
  rcases asks_cases ha with hgroup | ⟨thread, t, g, hwake, hw, hgroup⟩
  · exact Or.inl hgroup
  · rw [hwake] at h hnow
    obtain rfl := Option.some.inj hnow
    rcases h (m, g) hw with hmap | hiff
    · exact Or.inl (by rw [hgroup]; exact hmap.symm)
    · exact Or.inr ⟨g, hgroup, hiff⟩

/-- A full group turns its caller away. -/
lemma check_of_full {W : ℤ} {s : State} {m : String} {g : ℕ} {now : ℤ}
    (h : Full W now (s.groups g)) :
    check W s m (some g) now = ({ s with trace := s.trace ++ [.full m g now] }, .full) := by
  obtain ⟨hpos, hnot, hge⟩ := h
  rcases check_cases W s m (some g) now with ⟨hun, -⟩ |
    ⟨g', hg', -, ⟨hdue, -⟩ | ⟨-, hlt, -⟩ | ⟨-, -, hcheck⟩⟩
  · exact absurd (hun g rfl) (not_le.mpr hpos)
  · obtain rfl := Option.some.inj hg'
    omega
  · obtain rfl := Option.some.inj hg'
    omega
  · obtain rfl := Option.some.inj hg'
    exact hcheck

/-- Any other lets it through. -/
lemma check_of_not_full {W : ℤ} {s : State} {m : String} {g : ℕ} {now : ℤ}
    (h : ¬ Full W now (s.groups g)) : Admits (check W s m (some g) now).1 m := by
  rcases check_cases W s m (some g) now with ⟨-, hcheck⟩ |
    ⟨g', hg', hpos, ⟨-, hcheck⟩ | ⟨-, -, hcheck⟩ | ⟨hnot, hge, -⟩⟩
  · exact ⟨s.byMethod[m]?, none, now, by rw [hcheck]; simp⟩
  · exact ⟨s.byMethod[m]?, some g', now, by rw [hcheck]; simp⟩
  · exact ⟨s.byMethod[m]?, some g', now, by rw [hcheck]; simp⟩
  · obtain rfl := Option.some.inj hg'
    exact absurd ⟨hpos, hnot, hge⟩ h

/-- An admission by the group that the table holds is charged there, if that one is limited. -/
lemma check_charges {W : ℤ} {s : State} {m : String} {g : ℕ} {now : ℤ}
    (hpos : 0 < (s.groups g).limit) (hm : s.byMethod[m]? = some g)
    (h : Admits (check W s m (some g) now).1 m) :
    ChargedTo W now s m g (check W s m (some g) now).1 := by
  obtain ⟨inForce, charged, t, hlast⟩ := h
  rcases check_cases W s m (some g) now with ⟨hun, -⟩ |
    ⟨g', hg', -, ⟨hdue, hcheck⟩ | ⟨hnot, -, hcheck⟩ | ⟨hnot, -, hcheck⟩⟩
  · exact absurd (hun g rfl) (not_le.mpr hpos)
  · obtain rfl := Option.some.inj hg'
    rw [ChargedTo, hcheck, rollWindow, if_pos hdue, hm]
    simp
  · obtain rfl := Option.some.inj hg'
    rw [ChargedTo, hcheck, rollWindow, if_neg (not_le.mpr hnot), hm]
    simp
  · rw [hcheck] at hlast
    exact absurd hlast (by simp)

/-- A group that lets a caller through charges no other. -/
lemma check_charged {W : ℤ} {s : State} {m : String} {g g' : ℕ} {now : ℤ}
    (h : ChargedTo W now s m g' (check W s m (some g) now).1) : g' = g := by
  obtain ⟨hlast, -⟩ := h
  rcases check_cases W s m (some g) now with ⟨-, hcheck⟩ |
    ⟨g'', hg'', -, ⟨-, hcheck⟩ | ⟨-, -, hcheck⟩ | ⟨-, -, hcheck⟩⟩
  · rw [hcheck] at hlast
    exact absurd hlast (by simp)
  · obtain rfl := Option.some.inj hg''
    rw [hcheck] at hlast
    simp only [List.getLast?_append, List.getLast?_cons_cons, List.getLast?_singleton,
      Option.some_or, Option.some.injEq, Event.admitted.injEq] at hlast
    exact hlast.2.2.1.symm
  · obtain rfl := Option.some.inj hg''
    rw [hcheck] at hlast
    simp only [List.getLast?_append, List.getLast?_singleton, Option.some_or, Option.some.injEq,
      Event.admitted.injEq] at hlast
    exact hlast.2.2.1.symm
  · rw [hcheck] at hlast
    exact absurd hlast (by simp)

/-- An action asks for one method. -/
lemma asks_unique {s : State} {a : Action} {m m' : String} {group group' : Option ℕ}
    (h : Asks s m group a) (h' : Asks s m' group' a) : m = m' := by
  cases a with
  | configure tariff => exact h.elim
  | setLimit methods perMinute => exact h.elim
  | tryAcquire method now => exact h.1.symm.trans h'.1
  | acquire thread method now => exact h.1.symm.trans h'.1
  | wake thread now =>
    obtain ⟨g, hw, -⟩ := h
    obtain ⟨g', hw', -⟩ := h'
    rw [hw] at hw'
    exact (Prod.mk.inj (Option.some.inj hw')).1

/-! ## One section -/

lemma agrees_step_charges {W : ℤ} {s s' : State} {a : Action} (hheap : Heap s)
    (hagrees : Agrees W s a) (hs : step W s a = some s') : ChargesInForce W s a s' := by
  constructor
  · intro m group now g hasks hnow hadmits hm hpos
    rcases step_cases hs with ⟨hnone, -, -⟩ | ⟨m₀, group₀, now₀, w, hnow₀, hasks₀, rfl, -⟩
    · rw [hnone] at hnow
      exact absurd hnow (by simp)
    · have hmm := asks_unique hasks₀ hasks
      have htime : now₀ = now := Option.some.inj (hnow₀.symm.trans hnow)
      rw [hmm] at hasks₀
      rw [hmm, htime] at hadmits ⊢
      rcases hagrees.asks hasks₀ hnow with hgroup | ⟨g', hgroup, hiff⟩
      · rw [hgroup, hm] at hadmits ⊢
        exact check_charges hpos hm hadmits
      · -- the table limits the method, so the caller was turned away
        obtain ⟨inForce, charged, t, hlast⟩ := hadmits
        rw [hgroup, check_of_full (hiff.mp ⟨g, hm, hpos⟩)] at hlast
        exact absurd hlast (by simp)
  · intro thread now m g ha hw hun
    have hlimited : ¬ Limited s m := fun ⟨g', hg', hpos⟩ => absurd (hun g' hg') (not_le.mpr hpos)
    rw [ha] at hagrees
    rcases hagrees (m, g) hw with hmap | hiff
    · -- a caller waits on a limited group
      exact absurd ⟨g, hmap, (hheap.callers thread m g hw).2⟩ hlimited
    · have hadmits := check_of_not_full (m := m) (fun hfull => hlimited (hiff.mpr hfull))
      rw [ha] at hs
      simp only [step, wake, hw] at hs
      rw [← Option.some.inj hs]
      split
      · exact hadmits
      · exact hadmits

/-- What a woken caller leaves behind is what its check leaves behind, but for who waits. -/
lemma wake_admits {W : ℤ} {s s' : State} {thread g : ℕ} {now : ℤ} {m : String}
    (hw : s.waiting thread = some (m, g)) (hs : step W s (.wake thread now) = some s') :
    s'.trace = (check W s m (some g) now).1.trace ∧
      s'.groups = (check W s m (some g) now).1.groups := by
  simp only [step, wake, hw] at hs
  rw [← Option.some.inj hs]
  split <;> exact ⟨rfl, rfl⟩

/-- A woken caller on another group, which is not turned away exactly when the table limits its
method, is charged there or turned away without a reason. -/
lemma agrees_of_charges {W : ℤ} {s s' : State} {a : Action} (h : ChargesInForce W s a s')
    (hs : step W s a = some s') : Agrees W s a := by
  obtain ⟨hcharged, hfree⟩ := h
  cases a with
  | configure tariff => trivial
  | setLimit methods perMinute => trivial
  | tryAcquire method now => trivial
  | acquire thread method now => trivial
  | wake thread now =>
    rintro ⟨m, g⟩ hw
    obtain ⟨htrace, hgroups⟩ := wake_admits hw hs
    by_cases hmap : s.byMethod[m]? = some g
    · exact Or.inl hmap
    · right
      constructor
      · rintro ⟨g', hg', hpos⟩
        by_contra hnot
        have hadmits : Admits s' m := by
          rw [Admits, htrace]
          exact check_of_not_full hnot
        have hto := hcharged m (some g) now g' ⟨g, hw, rfl⟩ rfl hadmits hg' hpos
        rw [ChargedTo, htrace, hgroups] at hto
        obtain rfl := check_charged hto
        exact hmap hg'
      · intro hfull
        by_contra hun
        have hunlimited : ∀ g', s.byMethod[m]? = some g' → (s.groups g').limit ≤ 0 :=
          fun g' hg' => not_lt.mp fun hpos => hun ⟨g', hg', hpos⟩
        obtain ⟨inForce, charged, t, hlast⟩ := hfree thread now m g rfl hw hunlimited
        rw [htrace, check_of_full hfull] at hlast
        exact absurd hlast (by simp)

/-! ## Runs -/

/-- The event charges the group that was in force, unless that one had no limit. -/
def InForce (s : State) : Event → Prop
  | .admitted _ inForce charged _ => ∀ g ∈ inForce,
      charged = some g ∨ g < s.nextGroup ∧ (s.groups g).limit ≤ 0
  | _ => True

lemma inForce_frame {s s' : State} (hnext : s.nextGroup ≤ s'.nextGroup)
    (hlimit : ∀ g < s.nextGroup, (s'.groups g).limit = (s.groups g).limit) {e : Event}
    (h : InForce s e) : InForce s' e := by
  cases e with
  | reconfigured => exact trivial
  | opened g t => exact trivial
  | full m g t => exact trivial
  | admitted m inForce charged t =>
    intro g hg
    rcases h g hg with hch | ⟨hlt, hle⟩
    · exact Or.inl hch
    · exact Or.inr ⟨hlt.trans_le hnext, by rw [hlimit g hlt]; exact hle⟩

/-- A caller that is admitted is charged to the group in force, unless that one has no limit. -/
lemma Agrees.recorded {W : ℤ} {s : State} {a : Action} (hheap : Heap s) (h : Agrees W s a)
    {m : String} {group : Option ℕ} {now : ℤ} (ha : Asks s m group a) (hnow : a.now? = some now)
    {es : List Event} (htrace : (check W s m group now).1.trace = s.trace ++ es)
    (hrec : ∀ e ∈ es, Recorded s m group now e) : ∀ e ∈ es, InForce s e := by
  intro e he
  have hrecorded := hrec e he
  cases e with
  | reconfigured => exact trivial
  | opened g t => exact trivial
  | full m' g t => exact trivial
  | admitted m' inForce charged t =>
    obtain ⟨-, hin, -, hcharged⟩ := hrecorded
    intro g hg
    rw [hin] at hg
    rcases h.asks ha hnow with hgroup | ⟨g', hgroup, hiff⟩
    · rcases hcharged with ⟨hch, -⟩ | ⟨-, hun⟩
      · exact Or.inl (by rw [hch, hgroup]; exact hg)
      · exact Or.inr ⟨hheap.table m g hg, hun g (by rw [hgroup]; exact hg)⟩
    · rcases le_or_gt (s.groups g).limit 0 with hun | hpos
      · exact Or.inr ⟨hheap.table m g hg, hun⟩
      · -- turned away: the only event is not an admission
        rw [hgroup, check_of_full (hiff.mp ⟨g, hg, hpos⟩)] at htrace
        rw [← List.append_cancel_left htrace] at he
        exact absurd he (by simp)

lemma inForce_step {W : ℤ} {s s' : State} {a : Action} (hheap : Heap s)
    (h : ∀ e ∈ s.trace, InForce s e) (hagrees : Agrees W s a) (hs : step W s a = some s') :
    ∀ e ∈ s'.trace, InForce s' e := by
  rcases step_cases hs with ⟨-, hre, htrace⟩ | ⟨m, group, now, w, hnow, hasks, rfl, -⟩
  · intro e he
    rw [htrace, List.mem_append, List.mem_singleton] at he
    rcases he with hold | hnew
    · exact inForce_frame hre.next (fun g hg => by rw [hre.old g hg]) (h e hold)
    · rw [hnew]
      exact trivial
  · obtain ⟨-, hnext, hlimit⟩ := check_frame W s m group now
    obtain ⟨es, -, htrace, hrec⟩ := check_trace W s m group now
    intro e he
    have hmem : e ∈ s.trace ++ es := by rw [← htrace]; exact he
    refine inForce_frame hnext.ge (fun g _ => hlimit g) ?_
    rcases List.mem_append.mp hmem with hold | hnew
    · exact h e hold
    · exact hagrees.recorded hheap hasks hnow htrace hrec e hnew

lemma limitKept_of_inForce {W : ℤ} {ok : State → Action → Prop} {s : State}
    (hr : Reachable (limiter W) ok s) (h : ∀ e ∈ s.trace, InForce s e) : LimitKept s := by
  intro g hpos pre seg post htrace _ hopen
  have hle := admissions_marks_le hr hpos htrace hopen
  have hsub : (admittedTimes (underGroup g) seg).Sublist (admissions (marks g seg)) := by
    refine admittedTimes_sublist fun m inForce charged now he hpick => ?_
    have hforce : InForce s (.admitted m inForce charged now) := by
      refine h _ ?_
      rw [htrace]
      simp [he]
    rw [underGroup, beq_iff_eq] at hpick
    rcases hforce g hpick with hch | ⟨-, hun⟩
    · exact hch
    · exact absurd hun (not_le.mpr hpos)
  have hlen := hsub.length_le
  omega

/-- **Admissions are charged to the limit in force** in every run in which a woken caller's method
is still mapped to the group it waits on, or that group is full exactly when the table limits the
method: each section charges the group in force, a caller the table does not limit is admitted,
and the calls of a group's methods keep to its limit. A section that does not meet the condition
charges another group, or turns a caller away that the table does not limit. -/
theorem charges_in_force_of_agrees {W : ℤ} {s : State} (h : Reachable (limiter W) (Agrees W) s) :
    LimitKept s ∧
      ∀ a s', step W s a = some s' → (ChargesInForce W s a s' ↔ Agrees W s a) := by
  have hforce : ∀ e ∈ s.trace, InForce s e :=
    h.invariant (I := fun s => ∀ e ∈ s.trace, InForce s e)
      (fun e he => absurd he (by simp [limiter]))
      fun _ _ _ hr hi hok hs => inForce_step (heap_of_reachable hr) hi hok hs
  exact ⟨limitKept_of_inForce h hforce, fun a s' hs =>
    ⟨fun hcharges => agrees_of_charges hcharges hs,
      fun hagrees => agrees_step_charges (heap_of_reachable h) hagrees hs⟩⟩

/-- A caller that waits while the limit of its method is lifted, and is admitted by its old
group. -/
theorem charges_in_force_lifted :
    ∃ s, Reachable (limiter 60) (Agrees 60) s ∧
      s.trace = [.reconfigured, .opened 0 100, .admitted "m" (some 0) (some 0) 100,
        .full "m" 0 101, .reconfigured, .opened 0 160, .admitted "m" (some 1) (some 0) 160] ∧
      LimitKept s := by
  obtain ⟨s, hs, hp⟩ := exists_reachable_of_run (limiter 60) (Agrees 60)
    (fun s => decide (s.trace = [.reconfigured, .opened 0 100,
      .admitted "m" (some 0) (some 0) 100, .full "m" 0 101, .reconfigured, .opened 0 160,
      .admitted "m" (some 1) (some 0) 160]))
    [.setLimit ["m"] 1, .acquire 0 "m" 100, .acquire 1 "m" 101, .setLimit ["m"] 0, .wake 1 160]
    (by decide +kernel)
  exact ⟨s, hs, of_decide_eq_true hp, (charges_in_force_of_agrees hs).1⟩

/-- A caller that waits while its method is moved to a new group with limit one: woken, it is
charged to the old group, beside the one admission that the new group allows. -/
theorem stale_caller_overruns :
    (∃ s, Reachable (limiter 60) (fun _ _ => True) s ∧
      s.trace = [.reconfigured, .opened 0 100, .admitted "m" (some 0) (some 0) 100,
        .full "m" 0 101, .reconfigured, .opened 1 160, .admitted "m" (some 1) (some 1) 160,
        .opened 0 160, .admitted "m" (some 1) (some 0) 160]) ∧
      ¬ ∀ (W : ℤ) (s : State), Reachable (limiter W) (fun _ _ => True) s →
        LimitKept s ∧ ∀ a s', step W s a = some s' → ChargesInForce W s a s' := by
  obtain ⟨s, hs, hp⟩ := exists_reachable_of_run (limiter 60) (fun _ _ => True)
    (fun s => decide (s.trace = [.reconfigured, .opened 0 100,
      .admitted "m" (some 0) (some 0) 100, .full "m" 0 101, .reconfigured, .opened 1 160,
      .admitted "m" (some 1) (some 1) 160, .opened 0 160, .admitted "m" (some 1) (some 0) 160]
      ∧ (s.groups 1).limit = 1))
    [.setLimit ["m"] 1, .acquire 0 "m" 100, .acquire 1 "m" 101, .setLimit ["m"] 1,
      .tryAcquire "m" 160, .wake 1 160]
    (by decide +kernel)
  simp only [decide_eq_true_eq] at hp
  obtain ⟨htrace, hlimit⟩ := hp
  refine ⟨⟨s, hs, htrace⟩, fun h => ?_⟩
  have hkept := (h 60 s hs).1 1 (by rw [hlimit]; norm_num)
    [.reconfigured, .opened 0 100, .admitted "m" (some 0) (some 0) 100, .full "m" 0 101,
      .reconfigured, .opened 1 160]
    [.admitted "m" (some 1) (some 1) 160, .opened 0 160, .admitted "m" (some 1) (some 0) 160] []
    htrace (by simp) (by simp)
  rw [hlimit] at hkept
  exact absurd hkept (by decide)

end RateLimiter
end TInvest
