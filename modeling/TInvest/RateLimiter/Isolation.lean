import TInvest.RateLimiter.Reconfiguration
import TInvest.RateLimiter.Reload

/-!
# What the limiter is for

A group of a tariff or a call of `set_limit` is a listing: a limit and the methods that share it.
From outside, the limiter is the list of the listings made so far, each with a window of its own,
and a rule that says which of them limits a method.

* `Listings` — that list, and how much of it the last `configure` has replaced;
* `table_in_force` — a method is limited by the last listing in force that names it, with the limit
  listed there;
* `windows_isolated` — what happens in the window of a listing depends on its limit and on the times
  at which it is asked, and on nothing else; a higher limit only admits more.
-/

namespace TInvest
namespace RateLimiter

open Lib.MapFold
open Lib.Transition
open Lib.FixedWindow

/-- The listings made so far; the first `replaced` of them are not in force any more. -/
structure Listings where
  made : List UnaryLimit := []
  replaced : ℕ := 0

/-- `configure` replaces the listings, `set_limit` adds one. -/
def Listings.add (l : Listings) : Action → Listings
  | .configure tariff => ⟨l.made ++ tariff, l.made.length⟩
  | .setLimit methods perMinute => { l with made := l.made ++ [⟨perMinute, methods⟩] }
  | .tryAcquire _ _ => l
  | .acquire _ _ _ => l
  | .wake _ _ => l

/-- The listings that the actions make. -/
def listings (as : List Action) : Listings := as.foldl Listings.add {}

/-- The listing `g` names the method. -/
def Listings.Names (l : Listings) (m : String) (g : ℕ) : Prop := ∃ ul ∈ l.made[g]?, m ∈ ul.names

/-- The listing `g` limits the method: it is the last one in force that names it. -/
def Listings.InForce (l : Listings) (m : String) (g : ℕ) : Prop :=
  l.replaced ≤ g ∧ l.Names m g ∧ ∀ g', g < g' → ¬ l.Names m g'

lemma Listings.Names.lt {l : Listings} {m : String} {g : ℕ} (h : l.Names m g) :
    g < l.made.length := by
  obtain ⟨ul, hul, -⟩ := h
  exact (List.getElem?_eq_some_iff.mp hul).1

/-- At most one listing limits a method. -/
lemma Listings.InForce.unique {l : Listings} {m : String} {g g' : ℕ} (h : l.InForce m g)
    (h' : l.InForce m g') : g = g' := by
  rcases lt_trichotomy g g' with hlt | heq | hgt
  · exact absurd h'.2.1 (h.2.2 g' hlt)
  · exact heq
  · exact absurd h.2.1 (h'.2.2 g hgt)

/-! ## The table -/

/-- The objects are the listings, and the table holds for each method the one in force. -/
structure Tabled (l : Listings) (s : State) : Prop where
  next : s.nextGroup = l.made.length
  limits : ∀ g, ∀ ul ∈ l.made[g]?, (s.groups g).limit = ul.limitPerMinute
  table : ∀ (m : String) (g : ℕ), s.byMethod[m]? = some g ↔ l.InForce m g
  replaced : l.replaced ≤ l.made.length

/-- One listing more: its object is the next one, and it is now the last to name its methods. -/
lemma Tabled.listed {l : Listings} {s : State} (h : Tabled l s) (ul : UnaryLimit) :
    Tabled { l with made := l.made ++ [ul] } (addGroup ul.methods ul.limitPerMinute s) := by
  have hnames : ∀ m g, Listings.Names { l with made := l.made ++ [ul] } m g ↔
      l.Names m g ∨ g = l.made.length ∧ m ∈ ul.names := by
    intro m g
    simp only [Listings.Names]
    rcases lt_trichotomy g l.made.length with hlt | rfl | hgt
    · rw [List.getElem?_append_left hlt]
      simp [hlt.ne]
    · simp
    · rw [List.getElem?_eq_none (by simp; omega), List.getElem?_eq_none (by omega)]
      simp [hgt.ne']
  refine ⟨?_, fun g ul' hul => ?_, fun m g => ?_, ?_⟩
  · simp only [addGroup, h.next, List.length_append, List.length_singleton]
  · show (Function.update s.groups s.nextGroup _ g).limit = _
    rcases lt_or_ge g l.made.length with hlt | hge
    · rw [Function.update_of_ne (by rw [h.next]; omega)]
      refine h.limits g ul' ?_
      rwa [List.getElem?_append_left hlt] at hul
    · -- the object that was just made
      have hlast : g = l.made.length := by
        have hbound := (List.getElem?_eq_some_iff.mp hul).1
        simp only [List.length_append, List.length_singleton] at hbound
        omega
      rw [hlast] at hul ⊢
      rw [List.getElem?_concat_length] at hul
      obtain rfl := Option.some.inj hul
      rw [h.next, Function.update_self]
  · simp only [Listings.InForce, hnames]
    by_cases hm : m ∈ ul.names
    · -- named by the new listing, so no earlier one is the last
      rw [addGroup_byMethod_of_mem hm, h.next]
      have hlast : ∀ g', l.made.length < g' →
          ¬ (l.Names m g' ∨ g' = l.made.length ∧ m ∈ ul.names) := by
        rintro g' hlt (hold | ⟨hnew, -⟩)
        · have hbound := hold.lt
          omega
        · omega
      constructor
      · intro hg
        obtain rfl := Option.some.inj hg
        exact ⟨h.replaced, Or.inr ⟨rfl, hm⟩, hlast⟩
      · rintro ⟨-, hold | ⟨hnew, -⟩, hno⟩
        · exact absurd (Or.inr ⟨rfl, hm⟩) (hno l.made.length hold.lt)
        · rw [hnew]
    · have hkeep : (addGroup ul.methods ul.limitPerMinute s).byMethod[m]?
          = s.byMethod[m]? := getElem?_insertEach_of_notMem s.byMethod _ hm
      rw [hkeep, h.table m g]
      simp [Listings.InForce, hm]
  · have hle := h.replaced
    simp only [List.length_append, List.length_singleton]
    omega

lemma Tabled.listedAll {l : Listings} {s : State} (h : Tabled l s) (tariff : Tariff) :
    Tabled { l with made := l.made ++ tariff } (addGroups tariff s) := by
  induction tariff generalizing l s with
  | nil =>
    show Tabled { l with made := l.made ++ [] } s
    rw [List.append_nil]
    exact h
  | cons ul tariff ih =>
    have htail := ih (h.listed ul)
    rw [List.append_assoc, List.singleton_append] at htail
    exact htail

/-- `configure` starts with an empty table, so nothing listed before is in force. -/
lemma Tabled.configured {l : Listings} {s : State} (h : Tabled l s) (tariff : Tariff) :
    Tabled ⟨l.made ++ tariff, l.made.length⟩ (configure tariff s) := by
  have hcleared : Tabled ⟨l.made, l.made.length⟩ { s with byMethod := ∅ } := by
    refine ⟨h.next, h.limits, fun m g => ?_, le_rfl⟩
    constructor
    · intro hg
      exact absurd hg (by simp)
    · rintro ⟨hle, hnames, -⟩
      have hbound : g < l.made.length := Listings.Names.lt hnames
      exact absurd hle (not_le.mpr hbound)
  have hadded := hcleared.listedAll tariff
  exact ⟨hadded.next, hadded.limits, hadded.table, hadded.replaced⟩

lemma Tabled.step {W : ℤ} {l : Listings} {s s' : State} {a : Action} (h : Tabled l s)
    (hs : step W s a = some s') : Tabled (l.add a) s' := by
  rcases step_cases hs with ⟨hnow, -, -⟩ | ⟨m, group, now, w, hnow, -, rfl, -⟩
  · cases a with
    | configure tariff =>
      obtain rfl := Option.some.inj hs
      exact h.configured tariff
    | setLimit methods perMinute =>
      obtain rfl := Option.some.inj hs
      have hadded := h.listed ⟨perMinute, methods⟩
      exact ⟨hadded.next, hadded.limits, hadded.table, hadded.replaced⟩
    | tryAcquire method now => exact absurd hnow (by simp [Action.now?])
    | acquire thread method now => exact absurd hnow (by simp [Action.now?])
    | wake thread now => exact absurd hnow (by simp [Action.now?])
  · -- a check leaves the table and the limits alone
    have hkeep : l.add a = l := by
      cases a with
      | configure tariff => exact absurd hnow (by simp [Action.now?])
      | setLimit methods perMinute => exact absurd hnow (by simp [Action.now?])
      | tryAcquire method now => rfl
      | acquire thread method now => rfl
      | wake thread now => rfl
    obtain ⟨hby, hnext, hlimit⟩ := check_frame W s m group now
    rw [hkeep]
    refine ⟨hnext.trans h.next, fun g ul hul => ?_, fun m' g => ?_, h.replaced⟩
    · show ((check W s m group now).1.groups g).limit = _
      rw [hlimit, h.limits g ul hul]
    · show (check W s m group now).1.byMethod[m']? = some g ↔ _
      rw [hby, h.table m' g]

lemma tabled_of_execution {W : ℤ} {ok : State → Action → Prop} {s : State} {as : List Action}
    (h : Execution (limiter W) ok (limiter W).init as s) : Tabled (listings as) s := by
  have hinit : Tabled {} (limiter W).init := by
    refine ⟨rfl, fun g ul hul => absurd hul (by simp), fun m g => ?_, le_rfl⟩
    constructor
    · intro hg
      exact absurd hg (by simp [limiter])
    · rintro ⟨-, hnames, -⟩
      exact absurd hnames.lt (by simp)
  induction h with
  | nil => exact hinit
  | concat a _ _ hs ih =>
    rw [listings, List.foldl_concat]
    exact ih.step hs

/-- **The table in force.** After every run, whatever `configure`, `set_limit` and callers did and
in which order: the table maps a method to the last listing that names it since the last
`configure`, the object of a listing has the limit listed there, and a method is limited if and
only if its listing in force has a positive limit. -/
theorem table_in_force {W : ℤ} {ok : State → Action → Prop} {s : State} {as : List Action}
    (h : Execution (limiter W) ok (limiter W).init as s) (m : String) :
    (∀ g : ℕ, s.byMethod[m]? = some g ↔ (listings as).InForce m g) ∧
      (∀ g, ∀ ul ∈ (listings as).made[g]?, (s.groups g).limit = ul.limitPerMinute) ∧
      (Limited s m ↔ ∃ g, ∃ ul ∈ (listings as).made[g]?,
        (listings as).InForce m g ∧ 0 < ul.limitPerMinute) := by
  have htabled := tabled_of_execution h
  refine ⟨htabled.table m, htabled.limits, ?_⟩
  constructor
  · rintro ⟨g, hg, hpos⟩
    have hforce := (htabled.table m g).mp hg
    obtain ⟨ul, hul, -⟩ := hforce.2.1
    rw [htabled.limits g ul hul] at hpos
    exact ⟨g, ul, hul, hforce, hpos⟩
  · rintro ⟨g, ul, hul, hforce, hpos⟩
    refine ⟨g, (htabled.table m g).mpr hforce, ?_⟩
    rw [htabled.limits g ul hul]
    exact hpos

/-- `enabled`. -/
def enabled (s : State) : Bool := !s.byMethod.isEmpty

/-- The limiter is enabled if and only if a listing is in force for some method. -/
lemma enabled_iff {W : ℤ} {ok : State → Action → Prop} {s : State} {as : List Action}
    (h : Execution (limiter W) ok (limiter W).init as s) :
    enabled s = true ↔ ∃ m g, (listings as).InForce m g := by
  have htabled := tabled_of_execution h
  have hempty : s.byMethod.isEmpty = true ↔ ∀ m : String, s.byMethod[m]? = none := by
    rw [Std.ExtTreeMap.isEmpty_iff]
    constructor
    · intro hnil m
      rw [hnil]
      exact Std.ExtTreeMap.getElem?_empty
    · intro hnone
      refine Std.ExtTreeMap.ext_getElem? fun m => ?_
      rw [hnone m, Std.ExtTreeMap.getElem?_empty]
  rw [enabled, Bool.not_eq_true', ← Bool.not_eq_true, hempty, not_forall]
  refine exists_congr fun m => ?_
  rw [← ne_eq, Option.ne_none_iff_exists']
  exact exists_congr fun g => htabled.table m g

/-- A method that a tariff lists twice, and one that is moved to a listing of its own while a
caller waits. -/
theorem table_in_force_moved :
    ∃ s, Execution (limiter 60) (fun _ _ => True) {}
        [.setLimit ["c"] 5, .configure [⟨1, ["/a", "b"]⟩, ⟨2, ["b"]⟩], .tryAcquire "a" 100,
          .acquire 0 "a" 101, .setLimit ["/a"] 0] s ∧
      s.byMethod["a"]? = some 3 ∧ s.byMethod["b"]? = some 2 ∧ ¬ Limited s "a" := by
  obtain ⟨s, hs, hp⟩ := exists_execution_of_run (limiter 60) (fun _ _ => True)
    (fun s => decide (s.byMethod["a"]? = some 3 ∧ s.byMethod["b"]? = some 2))
    [.setLimit ["c"] 5, .configure [⟨1, ["/a", "b"]⟩, ⟨2, ["b"]⟩], .tryAcquire "a" 100,
      .acquire 0 "a" 101, .setLimit ["/a"] 0]
    {} (by decide +kernel)
  simp only [decide_eq_true_eq] at hp
  refine ⟨s, hs, hp.1, hp.2, ?_⟩
  intro hlimited
  obtain ⟨g, ul, hul, hforce, hpos⟩ := (table_in_force hs "a").2.2.mp hlimited
  have hg : g = 3 := by
    have hmap := ((table_in_force hs "a").1 g).mpr hforce
    rw [hp.1] at hmap
    exact (Option.some.inj hmap).symm
  rw [hg] at hul
  obtain rfl : (⟨0, ["/a"]⟩ : UnaryLimit) = ul := Option.some.inj hul
  exact absurd hpos (by decide)

/-! ## The windows -/

/-- The readings of the clock with which the group object `g` was asked for a slot. -/
def askedTimes (g : ℕ) (trace : List Event) : List ℤ := requests (marks g trace)

/-- A group object and its log are what a fresh counter makes of the readings. -/
lemma replayed_of_reachable {W : ℤ} {ok : State → Action → Prop} {s : State}
    (h : Reachable (limiter W) ok s) (g : ℕ) :
    Replayed W (s.groups g).counter (marks g s.trace) :=
  groups_invariant (fun n => replayed_fresh W n) (fun _ _ now _ _ _ _ hi => hi.step now) h g

/-- **Isolated windows.** Take any two runs of a limiter and in each of them a group object, and let
the two be asked at the same readings of the clock. Whatever else happens in the runs, to other
groups, to the table or among the callers: with the same limit they open the same windows and admit
and refuse at the same times, and are left with the same count and window; and with a positive but
lower limit the first one admits at most what the second one does. -/
theorem windows_isolated {W : ℤ} {ok ok' : State → Action → Prop} {s s' : State}
    (h : Reachable (limiter W) ok s) (h' : Reachable (limiter W) ok' s') {g g' : ℕ}
    (htimes : askedTimes g s.trace = askedTimes g' s'.trace) :
    ((s.groups g).limit = (s'.groups g').limit →
      s.groups g = s'.groups g' ∧ marks g s.trace = marks g' s'.trace) ∧
    (0 < (s.groups g).limit → (s.groups g).limit ≤ (s'.groups g').limit →
      (admissions (marks g s.trace)).Sublist (admissions (marks g' s'.trace))) := by
  have hreplay := replayed_of_reachable h g
  have hreplay' := replayed_of_reachable h' g'
  constructor
  · intro hlimit
    obtain ⟨hcounter, hmarks⟩ := hreplay.eq hreplay' (congrArg Int.toNat hlimit) htimes
    obtain ⟨-, hcount, hstart⟩ := Counter.mk.inj hcounter
    refine ⟨?_, hmarks⟩
    cases hg : s.groups g
    cases hg' : s'.groups g'
    simp only [hg, hg'] at hlimit hcount hstart
    rw [hlimit, hcount, hstart]
  · intro hpos hle
    have hlimit := Group.counter_limit hpos
    have hlimit' := Group.counter_limit (hpos.trans_le hle)
    exact hreplay.admissions_sublist hreplay' (by omega) (by omega) htimes

/-- A group that is alone in its limiter, and one that shares it with another group whose caller
waits while the table is replaced. -/
theorem windows_isolated_busy :
    ∃ s s', Reachable (limiter 60) (fun _ _ => True) s ∧
      Reachable (limiter 60) (fun _ _ => True) s' ∧
      askedTimes 0 s.trace = [100, 110] ∧ askedTimes 1 s'.trace = [100, 110] ∧
      marks 0 s.trace = marks 1 s'.trace := by
  obtain ⟨s, hs, hp⟩ := exists_reachable_of_run (limiter 60) (fun _ _ => True)
    (fun s => decide (askedTimes 0 s.trace = [100, 110] ∧ (s.groups 0).limit = 1))
    [.setLimit ["m"] 1, .tryAcquire "m" 100, .tryAcquire "m" 110] (by decide +kernel)
  obtain ⟨s', hs', hp'⟩ := exists_reachable_of_run (limiter 60) (fun _ _ => True)
    (fun s => decide (askedTimes 1 s.trace = [100, 110] ∧ (s.groups 1).limit = 1))
    [.configure [⟨1, ["a"]⟩, ⟨1, ["m", "n"]⟩], .tryAcquire "a" 90, .acquire 0 "m" 100,
      .acquire 1 "n" 110, .configure [], .tryAcquire "m" 120] (by decide +kernel)
  simp only [decide_eq_true_eq] at hp hp'
  refine ⟨s, s', hs, hs', hp.1, hp'.1, ?_⟩
  exact ((windows_isolated hs hs' (hp.1.trans hp'.1.symm)).1 (hp.2.trans hp'.2.symm)).2

end RateLimiter
end TInvest
