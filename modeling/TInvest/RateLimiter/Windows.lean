import TInvest.RateLimiter.Steps

/-!
# The limit in a steady state

Runs in which the limiter is set up first and asked afterwards. There the table does not change
any more, so the admissions of the methods of a group are the charges to its object, and the
bounds of the fixed-window counter are bounds on the calls: `steady_limit_bounds`.
-/

namespace TInvest
namespace RateLimiter

open Lib.Transition
open Lib.FixedWindow

/-! ## Admissions by method -/

/-- The times of the admissions whose method and table entry satisfy `p`. -/
def admittedTimes (p : String → Option ℕ → Bool) (trace : List Event) : List ℤ :=
  trace.filterMap fun
    | .admitted m inForce _ now => if p m inForce then some now else none
    | _ => none

lemma admittedTimes_append (p : String → Option ℕ → Bool) (l l' : List Event) :
    admittedTimes p (l ++ l') = admittedTimes p l ++ admittedTimes p l' :=
  List.filterMap_append

lemma mem_admittedTimes {p : String → Option ℕ → Bool} {trace : List Event} {t : ℤ}
    (h : t ∈ admittedTimes p trace) : ∃ e ∈ trace, t ∈ e.time? := by
  rw [admittedTimes, List.mem_filterMap] at h
  obtain ⟨e, he, ht⟩ := h
  refine ⟨e, he, ?_⟩
  cases e with
  | reconfigured => exact absurd ht (by simp)
  | opened g now => exact absurd ht (by simp)
  | full m g now => exact absurd ht (by simp)
  | admitted m inForce charged now =>
    simp only at ht
    split at ht
    · exact ht
    · exact absurd ht (by simp)

/-- Where `p` picks the charges to the object `g`, its times are the ones of the object's log. -/
lemma admittedTimes_eq_admissions {p : String → Option ℕ → Bool} {g : ℕ} {trace : List Event}
    (h : ∀ m inForce charged now, Event.admitted m inForce charged now ∈ trace →
      (p m inForce = true ↔ charged = some g)) :
    admittedTimes p trace = admissions (marks g trace) := by
  rw [admissions_marks, admittedTimes]
  refine List.filterMap_congr fun e he => ?_
  cases e with
  | reconfigured => rfl
  | opened g' now => rfl
  | full m g' now => rfl
  | admitted m inForce charged now =>
    simp only [Event.charge?, h m inForce charged now he]

/-- Where `p` picks only such charges, its times are among them. -/
lemma admittedTimes_sublist {p : String → Option ℕ → Bool} {g : ℕ} {trace : List Event}
    (h : ∀ m inForce charged now, Event.admitted m inForce charged now ∈ trace →
      p m inForce = true → charged = some g) :
    (admittedTimes p trace).Sublist (admissions (marks g trace)) := by
  rw [admissions_marks, admittedTimes]
  induction trace with
  | nil => exact List.Sublist.slnil
  | cons e trace ih =>
    have htail := ih fun m inForce charged now he =>
      h m inForce charged now (List.mem_cons_of_mem e he)
    cases e with
    | reconfigured => exact htail
    | opened g' now => exact htail
    | full m g' now => exact htail
    | admitted m inForce charged now =>
      have hp := h m inForce charged now (List.mem_cons_self ..)
      by_cases hpick : p m inForce = true
      · simpa [List.filterMap_cons, Event.charge?, hpick, hp hpick] using htail
      · by_cases hcharged : charged = some g
        · simpa [List.filterMap_cons, Event.charge?, hpick, hcharged] using
            htail.trans (List.sublist_cons_self now _)
        · simpa [List.filterMap_cons, Event.charge?, hpick, hcharged] using htail

/-- `e` opens a window of the group object `g`. -/
def isOpening (g : ℕ) : Event → Bool
  | .opened g' _ => g' == g
  | _ => false

/-- What happened since the last window of the group object `g` was opened. -/
def currentWindow (g : ℕ) (trace : List Event) : List Event :=
  trace.rtakeWhile fun e => !isOpening g e

lemma not_opened_marks {g : ℕ} {seg : List Event} (h : ∀ t, Event.opened g t ∉ seg) :
    ∀ t, Mark.opened t ∉ marks g seg := by
  intro t ht
  rw [marks, List.mem_filterMap] at ht
  obtain ⟨e, he, hmark⟩ := ht
  cases e with
  | reconfigured => exact absurd hmark (by simp [Event.mark?])
  | opened g' now =>
    simp only [Event.mark?] at hmark
    split at hmark
    · next hg =>
      rw [hg] at he
      exact h now he
    · exact absurd hmark (by simp)
  | full m g' now =>
    simp only [Event.mark?] at hmark
    split at hmark <;> exact absurd hmark (by simp)
  | admitted m inForce charged now =>
    simp only [Event.mark?] at hmark
    split at hmark <;> exact absurd hmark (by simp)

/-- The current window of the log is the one of the trace. -/
lemma split_marks (g : ℕ) (trace : List Event) :
    (split (marks g trace)).2 = admissions (marks g (currentWindow g trace)) := by
  induction trace using List.reverseRecOn with
  | nil => rfl
  | append_singleton trace e ih =>
    rw [currentWindow, List.rtakeWhile_concat]
    by_cases hopen : isOpening g e = true
    · rw [if_neg (by simp [hopen]), marks_append]
      cases e with
      | opened g' now =>
        have hg : g' = g := by simpa [isOpening] using hopen
        have hmark : marks g [Event.opened g' now] = [.opened now] := by
          simp [marks, Event.mark?, hg]
        rw [hmark, split_concat]
        rfl
      | reconfigured => exact absurd hopen (by simp [isOpening])
      | full m g' now => exact absurd hopen (by simp [isOpening])
      | admitted m inForce charged now => exact absurd hopen (by simp [isOpening])
    · rw [if_pos (by simpa using hopen), marks_append, marks_append, admissions_append]
      rw [currentWindow] at ih
      have hnone : ∀ t, Mark.opened t ∉ marks g [e] := by
        refine not_opened_marks fun t ht => ?_
        rw [List.mem_singleton] at ht
        rw [← ht] at hopen
        exact hopen (by simp [isOpening])
      rw [split_append_of_not_opened _ hnone, ih]

/-- Between two openings of its window a group object is charged at most its limit. -/
lemma admissions_marks_le {W : ℤ} {ok : State → Action → Prop} {s : State}
    (h : Reachable (limiter W) ok s) {g : ℕ} (hpos : 0 < (s.groups g).limit)
    {pre seg post : List Event} (htrace : s.trace = pre ++ (seg ++ post))
    (hopen : ∀ t, Event.opened g t ∉ seg) :
    ((admissions (marks g seg)).length : ℤ) ≤ (s.groups g).limit := by
  have hmarks : marks g s.trace = marks g pre ++ (marks g seg ++ marks g post) := by
    rw [htrace, marks_append, marks_append]
  have hle := (counted_of_reachable h g).windows _ _ _ hmarks (not_opened_marks hopen)
  have hlimit := Group.counter_limit hpos
  omega

/-! ## Steady runs -/

/-- The limiter is reconfigured only before it is first asked, and its clock runs. -/
def Settled (W : ℤ) (s : State) (a : Action) : Prop :=
  Clocked W s a ∧ (a.now? = none → ∀ e ∈ s.trace, e = .reconfigured)

instance (W : ℤ) (s : State) (a : Action) : Decidable (Settled W s a) :=
  inferInstanceAs (Decidable (_ ∧ _))

/-- The event was recorded under the table of `s`. -/
def UnderTable (s : State) : Event → Prop
  | .reconfigured => True
  | .opened _ _ => True
  | .admitted m inForce charged _ => inForce = s.byMethod[m]? ∧
      (charged = inForce ∨ charged = none ∧ ∀ g ∈ inForce, (s.groups g).limit ≤ 0)
  | .full m g _ => s.byMethod[m]? = some g

/-- The table is the one every caller has seen. -/
structure Steady (s : State) : Prop where
  callers : ∀ t m g, s.waiting t = some (m, g) →
    s.byMethod[m]? = some g ∧ ∃ e ∈ s.trace, e ≠ .reconfigured
  events : ∀ e ∈ s.trace, UnderTable s e

/-- A caller that asks under the table records events under it. -/
lemma underTable_of_recorded {s s' : State} {m : String} {now : ℤ} {e : Event}
    (hby : s'.byMethod = s.byMethod) (hlimit : ∀ g, (s'.groups g).limit = (s.groups g).limit)
    (h : Recorded s m s.byMethod[m]? now e) : UnderTable s' e := by
  cases e with
  | reconfigured => exact trivial
  | opened g t => exact trivial
  | full m' g t =>
    obtain ⟨hm, hg, -⟩ := h
    rw [UnderTable, hby, hm, hg]
  | admitted m' inForce charged t =>
    obtain ⟨hm, hin, -, hcharged⟩ := h
    rw [UnderTable, hby, hm]
    refine ⟨hin, ?_⟩
    rcases hcharged with ⟨hch, -⟩ | ⟨hch, hun⟩
    · exact Or.inl (by rw [hch, hin])
    · refine Or.inr ⟨hch, fun g hg => ?_⟩
      rw [hlimit]
      exact hun g (by rw [← hin]; exact hg)

lemma underTable_frame {s s' : State} (hby : s'.byMethod = s.byMethod)
    (hlimit : ∀ g, (s'.groups g).limit = (s.groups g).limit) {e : Event} (h : UnderTable s e) :
    UnderTable s' e := by
  cases e with
  | reconfigured => exact trivial
  | opened g t => exact trivial
  | full m g t => simpa only [UnderTable, hby] using h
  | admitted m inForce charged t => simpa only [UnderTable, hby, hlimit] using h

lemma Steady.asks {s : State} (h : Steady s) {a : Action} {m : String} {group : Option ℕ}
    (ha : Asks s m group a) : group = s.byMethod[m]? := by
  rcases asks_cases ha with hgroup | ⟨thread, now, g, -, hw, hgroup⟩
  · exact hgroup
  · rw [hgroup, (h.callers thread m g hw).1]

lemma steady_step {W : ℤ} {s s' : State} {a : Action} (h : Steady s) (hok : Settled W s a)
    (hs : step W s a = some s') : Steady s' := by
  rcases step_cases hs with ⟨hnow, hre, htrace⟩ | ⟨m, group, now, w, -, hasks, rfl, hw⟩
  · -- nothing was asked yet
    have hall := hok.2 hnow
    refine ⟨fun t m g ht => ?_, fun e he => ?_⟩
    · rw [hre.waiting] at ht
      obtain ⟨-, e, he, hne⟩ := h.callers t m g ht
      exact absurd (hall e he) hne
    · rw [htrace, List.mem_append, List.mem_singleton] at he
      have hre' : e = .reconfigured := by
        rcases he with he | he
        · exact hall e he
        · exact he
      rw [hre']
      exact trivial
  · obtain ⟨hby, -, hlimit⟩ := check_frame W s m group now
    obtain ⟨es, hne, htrace, hrec⟩ := check_trace W s m group now
    have hgroup := h.asks hasks
    refine ⟨fun t m' g' ht => ?_, fun e he => ?_⟩
    · show (check W s m group now).1.byMethod[m']? = some g' ∧
        ∃ e ∈ (check W s m group now).1.trace, e ≠ .reconfigured
      rw [hby, htrace]
      rcases hw t m' g' ht with hold | ⟨hm, hg, -⟩
      · obtain ⟨hmap, e, he, hne'⟩ := h.callers t m' g' hold
        exact ⟨hmap, e, List.mem_append_left _ he, hne'⟩
      · obtain ⟨e, he⟩ := List.exists_mem_of_ne_nil es hne
        refine ⟨by rw [hm, ← hgroup, hg], e, List.mem_append_right _ he, ?_⟩
        intro hre
        have hfalse := hrec e he
        rw [hre] at hfalse
        exact hfalse
    · have hmem : e ∈ s.trace ++ es := by rw [← htrace]; exact he
      rcases List.mem_append.mp hmem with hold | hnew
      · exact underTable_frame hby hlimit (h.events e hold)
      · have hrecorded := hrec e hnew
        rw [hgroup] at hrecorded
        rw [hgroup] at hby hlimit ⊢
        exact underTable_of_recorded hby hlimit hrecorded

lemma steady_of_reachable {W : ℤ} {s : State} (h : Reachable (limiter W) (Settled W) s) :
    Steady s := by
  have hinit : Steady (limiter W).init :=
    ⟨fun t m g ht => absurd ht (by simp [limiter]), fun e he => absurd he (by simp [limiter])⟩
  exact h.invariant hinit fun _ _ _ _ hi hok hs => steady_step hi hok hs

/-! ## The bounds -/

/-- The methods of the group object `g` in the table of `s`. -/
def ofGroup (s : State) (g : ℕ) (m : String) (_ : Option ℕ) : Bool :=
  s.byMethod[m]? == some g

/-- In a steady state the calls of the methods of a limited group are the charges to it. -/
lemma Steady.admittedTimes_ofGroup {s : State} (h : Steady s) {g : ℕ}
    (hpos : 0 < (s.groups g).limit) {seg : List Event} (hseg : ∀ e ∈ seg, e ∈ s.trace) :
    admittedTimes (ofGroup s g) seg = admissions (marks g seg) := by
  refine admittedTimes_eq_admissions fun m inForce charged now he => ?_
  obtain ⟨hin, hcharged⟩ := h.events _ (hseg _ he)
  rw [ofGroup, beq_iff_eq, ← hin]
  constructor
  · intro hg
    rcases hcharged with hch | ⟨-, hun⟩
    · rw [hch, hg]
    · exact absurd (hun g hg) (not_le.mpr hpos)
  · intro hg
    rcases hcharged with hch | ⟨hch, -⟩
    · rw [← hch, hg]
    · rw [hch] at hg
      exact absurd hg (by simp)

/-- A caller that is turned away finds the current window full of admissions less than a window
ago. -/
lemma Steady.refused {W : ℤ} {s : State} (h : Steady s) {g : ℕ} (hpos : 0 < (s.groups g).limit)
    (htimed : Timed W (s.groups g).counter (marks g s.trace)) {pre post : List Event} {m : String}
    {now : ℤ} (htrace : s.trace = pre ++ Event.full m g now :: post) :
    ((admittedTimes (ofGroup s g) (currentWindow g pre)).length : ℤ) = (s.groups g).limit ∧
      (∀ t ∈ admittedTimes (ofGroup s g) (currentWindow g pre), now - t < W) ∧
      (s.groups g).limit
        ≤ (admittedTimes (ofGroup s g) pre).countP (fun t => now - t < W) := by
  have hlimit := Group.counter_limit hpos
  have hmarks : marks g s.trace = marks g pre ++ Mark.refused now :: marks g post := by
    rw [htrace, marks_append]
    simp [marks, Event.mark?]
  obtain ⟨hlen, hago⟩ := htimed.refusals _ _ _ hmarks now rfl
  have hsuffix : currentWindow g pre <:+ pre := List.rtakeWhile_suffix _ _
  have hcur : admittedTimes (ofGroup s g) (currentWindow g pre) = (split (marks g pre)).2 := by
    rw [split_marks, h.admittedTimes_ofGroup hpos]
    intro e he
    rw [htrace]
    exact List.mem_append_left _ (hsuffix.subset he)
  rw [hcur]
  refine ⟨by omega, hago, ?_⟩
  obtain ⟨before, hbefore⟩ := hsuffix
  have hall : (split (marks g pre)).2.countP (fun t => decide (now - t < W))
      = (split (marks g pre)).2.length := by
    rw [List.countP_eq_length]
    intro t ht
    simpa using hago t ht
  rw [← hbefore, admittedTimes_append, List.countP_append, hcur, hall]
  push_cast
  omega

/-- **The limit of a group.** In every run that is set up first, with a clock that does not go back
and starts at least a window past its epoch, for every group with a positive limit `L`: between two
openings of its window at most `L` calls of its methods are admitted; every half-open interval of
the length of the window holds at most `2 L - 1` of them; and a caller that is turned away or goes
to wait finds exactly `L` admissions in the current window, so at least `L`, less than a window
ago. -/
theorem steady_limit_bounds {W : ℤ} {s : State} (h : Reachable (limiter W) (Settled W) s) (g : ℕ)
    (hpos : 0 < (s.groups g).limit) :
    (∀ pre seg post, s.trace = pre ++ (seg ++ post) → (∀ t, Event.opened g t ∉ seg) →
      ((admittedTimes (ofGroup s g) seg).length : ℤ) ≤ (s.groups g).limit) ∧
    (∀ t, (inInterval W t (admittedTimes (ofGroup s g) s.trace) : ℤ)
      ≤ 2 * (s.groups g).limit - 1) ∧
    ∀ pre post m g' now, s.trace = pre ++ Event.full m g' now :: post →
      s.byMethod[m]? = some g →
      ((admittedTimes (ofGroup s g) (currentWindow g pre)).length : ℤ) = (s.groups g).limit ∧
      (∀ t ∈ admittedTimes (ofGroup s g) (currentWindow g pre), now - t < W) ∧
      (s.groups g).limit
        ≤ (admittedTimes (ofGroup s g) pre).countP (fun t => now - t < W) := by
  have hsteady := steady_of_reachable h
  have htimed := timed_of_reachable (fun _ _ hok => hok.1) h g
  have hlimit := Group.counter_limit hpos
  have hpos' : 0 < (s.groups g).counter.limit := by omega
  refine ⟨fun pre seg post htrace hopen => ?_, fun t => ?_, fun pre post m g' now htrace hm => ?_⟩
  · rw [hsteady.admittedTimes_ofGroup hpos fun e he => by rw [htrace]; simp [he]]
    exact admissions_marks_le h hpos htrace hopen
  · rw [hsteady.admittedTimes_ofGroup hpos fun e he => he]
    have hle := htimed.interval_le hpos' t
    omega
  · -- the caller was turned away by the group of its method
    have hfull : Event.full m g' now ∈ s.trace := by
      rw [htrace]
      simp
    have hg : g' = g := by
      have hmap : s.byMethod[m]? = some g' := hsteady.events _ hfull
      rw [hm] at hmap
      exact (Option.some.inj hmap).symm
    rw [hg] at htrace
    exact hsteady.refused hpos htimed htrace

/-- Two callers of a group with limit one: the second is turned away, and admitted by the next
window. -/
theorem steady_limit_bounds_one :
    ∃ s, Reachable (limiter 60) (Settled 60) s ∧
      s.trace = [.reconfigured, .opened 0 100, .admitted "a" (some 0) (some 0) 100,
        .full "b" 0 159, .opened 0 160, .admitted "b" (some 0) (some 0) 160] ∧
      inInterval 60 101 (admittedTimes (ofGroup s 0) s.trace) ≤ 1 := by
  obtain ⟨s, hs, hp⟩ := exists_reachable_of_run (limiter 60) (Settled 60)
    (fun s => decide (s.trace = [.reconfigured, .opened 0 100,
      .admitted "a" (some 0) (some 0) 100, .full "b" 0 159, .opened 0 160,
      .admitted "b" (some 0) (some 0) 160] ∧ (s.groups 0).limit = 1))
    [.setLimit ["/a", "b"] 1, .tryAcquire "a" 100, .acquire 1 "b" 159, .wake 1 160]
    (by decide +kernel)
  simp only [decide_eq_true_eq] at hp
  have hbound := (steady_limit_bounds hs 0 (by rw [hp.2]; norm_num)).2.1 101
  rw [hp.2] at hbound
  exact ⟨s, hs, hp.1, by omega⟩

end RateLimiter
end TInvest
