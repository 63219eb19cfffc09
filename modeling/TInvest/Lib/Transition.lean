import Mathlib

/-!
# Transition systems and their traces

A system is an initial state and a guarded step function: `step s a` is `some s'` when the
action `a` is enabled in `s`. Every result is about the states reachable by actions that an
assumption `ok` admits, so one system serves several assumptions on its environment.

* `Reachable.invariant` — what holds initially and is kept by every admitted step holds in
  every reachable state;
* `Guarded` — every event of a trace was allowed by the events before it;
* `Path` — the events of a trace lead from one state of a labelled relation to another;
* `Execution` — the actions between two states; `Execution.length_le` bounds their number by a
  potential, up to what the environment pays in; `Execution.conserve` is the conservation law of
  a queue: what has come out, followed by what is inside, is what has gone in;
* `reachable_of_run` — a run that checks `ok` on the way ends in a reachable state.
-/

namespace Lib
namespace Transition

/-- An initial state and a guarded step function. -/
structure System (σ α : Type) where
  init : σ
  step : σ → α → Option σ

section
variable {σ α : Type} (M : System σ α) (ok : σ → α → Prop)

/-- The states reachable by admitted actions. -/
inductive Reachable : σ → Prop
  | init : Reachable M.init
  | step {s s' : σ} (a : α) (h : Reachable s) (hok : ok s a) (hs : M.step s a = some s') :
    Reachable s'

variable {M ok}

/-- An invariant may use every other fact about reachable states. -/
theorem Reachable.invariant {I : σ → Prop} (h0 : I M.init)
    (hstep : ∀ s a s', Reachable M ok s → I s → ok s a → M.step s a = some s' → I s')
    {s : σ} (h : Reachable M ok s) : I s := by
  induction h with
  | init => exact h0
  | step a h hok hs ih => exact hstep _ a _ h ih hok hs

/-- A weaker assumption reaches more. -/
theorem Reachable.mono {ok' : σ → α → Prop} (hle : ∀ s a, ok s a → ok' s a) {s : σ}
    (h : Reachable M ok s) : Reachable M ok' s := by
  induction h with
  | init => exact .init
  | step a h hok hs ih => exact .step a ih (hle _ a hok) hs

variable (M ok) in
/-- Take the actions in order, checking `ok` before each. -/
def run [∀ s a, Decidable (ok s a)] : σ → List α → Option σ
  | s, [] => some s
  | s, a :: as => if ok s a then (M.step s a).bind fun s' => run s' as else none

theorem reachable_of_run [∀ s a, Decidable (ok s a)] {s s' : σ} (as : List α)
    (h : Reachable M ok s) (hrun : run M ok s as = some s') : Reachable M ok s' := by
  induction as generalizing s with
  | nil =>
    rw [run, Option.some.injEq] at hrun
    exact hrun ▸ h
  | cons a as ih =>
    rw [run] at hrun
    split at hrun
    · next hok =>
      obtain ⟨s₁, hs₁, hrun⟩ := Option.bind_eq_some_iff.mp hrun
      exact ih (.step a h hok hs₁) hrun
    · exact absurd hrun (by simp)

variable (M ok) in
/-- A run from the initial state to a state with a checked property. -/
theorem exists_reachable_of_run [∀ s a, Decidable (ok s a)] (p : σ → Bool) (as : List α)
    (h : (run M ok M.init as).any p = true) : ∃ s, Reachable M ok s ∧ p s = true := by
  rw [Option.any_eq_true] at h
  obtain ⟨s, hrun, hp⟩ := h
  exact ⟨s, reachable_of_run as .init hrun, hp⟩

variable (M ok) in
/-- The admitted actions `as`, in order, lead from `s` to another state. -/
inductive Execution (s : σ) : List α → σ → Prop
  | nil : Execution s [] s
  | concat {as : List α} {s₁ s₂ : σ} (a : α) (h : Execution s as s₁) (hok : ok s₁ a)
    (hs : M.step s₁ a = some s₂) : Execution s (as ++ [a]) s₂

/-- An execution goes through reachable states. -/
theorem Reachable.execution {ok' : σ → α → Prop} (hle : ∀ s a, ok' s a → ok s a) {s s' : σ}
    {as : List α} (h : Reachable M ok s) (he : Execution M ok' s as s') : Reachable M ok s' := by
  induction he with
  | nil => exact h
  | concat a _ hok hs ih => exact .step a ih (hle _ a hok) hs

theorem Execution.mono {ok' : σ → α → Prop} (hle : ∀ s a, ok s a → ok' s a) {s s' : σ}
    {as : List α} (h : Execution M ok s as s') : Execution M ok' s as s' := by
  induction h with
  | nil => exact .nil
  | concat a _ hok hs ih => exact .concat a ih (hle _ a hok) hs

theorem Execution.cons {s s₁ s' : σ} {as : List α} (a : α) (hok : ok s a)
    (hs : M.step s a = some s₁) (h : Execution M ok s₁ as s') : Execution M ok s (a :: as) s' := by
  induction h with
  | nil => exact show Execution M ok s ([] ++ [a]) s₁ from .concat a .nil hok hs
  | concat b _ hok' hs' ih => exact .concat b ih hok' hs'

variable (M ok) in
/-- A checked run is an execution. -/
theorem exists_execution_of_run [∀ s a, Decidable (ok s a)] (p : σ → Bool) (as : List α) (s : σ)
    (h : (run M ok s as).any p = true) : ∃ s', Execution M ok s as s' ∧ p s' = true := by
  induction as generalizing s with
  | nil => exact ⟨s, .nil, by simpa [run] using h⟩
  | cons a as ih =>
    rw [run] at h
    split at h
    · next hok =>
      cases hs : M.step s a with
      | none => exact absurd h (by simp [hs])
      | some s₁ =>
        rw [hs, Option.bind_some] at h
        obtain ⟨s', hexec, hp⟩ := ih s₁ h
        exact ⟨s', .cons a hok hs hexec, hp⟩
    · exact absurd h (by simp)

/-- **Potential rule.** If every step lowers the potential `V`, but for the `cost` that its
action pays in, an execution is no longer than the potential at its start and what was paid in. -/
theorem Execution.length_le {V : σ → ℕ → Prop} (cost : α → ℕ)
    (hstep : ∀ s a s' n, V s n → ok s a → M.step s a = some s' →
      ∃ m, m + 1 ≤ n + cost a ∧ V s' m)
    {s s' : σ} {as : List α} {n : ℕ} (h0 : V s n) (h : Execution M ok s as s') :
    ∃ m, m + as.length ≤ n + (as.map cost).sum ∧ V s' m := by
  induction h with
  | nil => exact ⟨n, by simp, h0⟩
  | concat a _ hok hs ih =>
    obtain ⟨m, hm, hV⟩ := ih
    obtain ⟨m', hm', hV'⟩ := hstep _ a _ m hV hok hs
    refine ⟨m', ?_, hV'⟩
    simp only [List.length_append, List.length_singleton, List.map_append, List.map_cons,
      List.map_nil, List.sum_append, List.sum_singleton]
    omega

/-- **Conservation rule.** If every step adds to the `load` what its action puts in, the load
after an execution is what was there and what its actions put in, in order. -/
theorem Execution.conserve {β : Type} {I : σ → Prop} (load : σ → List β) (input : α → List β)
    (hstep : ∀ s a s', I s → ok s a → M.step s a = some s' →
      load s' = load s ++ input a ∧ I s')
    {s s' : σ} {as : List α} (h0 : I s) (h : Execution M ok s as s') :
    load s' = load s ++ as.flatMap input ∧ I s' := by
  induction h with
  | nil => exact ⟨by simp, h0⟩
  | concat a _ hok hs ih =>
    obtain ⟨hload, hI⟩ := ih
    obtain ⟨hload', hI'⟩ := hstep _ a _ hI hok hs
    refine ⟨?_, hI'⟩
    rw [hload', hload, List.flatMap_append, List.append_assoc]
    simp

end

section
variable {ε : Type} {P Q : List ε → ε → Prop} {l : List ε} {e : ε}

/-- Every event of the trace was allowed by the events before it. -/
def Guarded (P : List ε → ε → Prop) (l : List ε) : Prop :=
  ∀ pre e post, l = pre ++ e :: post → P pre e

theorem guarded_nil : Guarded P [] := by
  intro pre e post h
  exact absurd h (by simp)

/-- A trace that ends in `e`, split at an event: the event is `e`, or it was there before. -/
theorem concat_eq_append_cons_iff {x : ε} {pre post : List ε} :
    l ++ [e] = pre ++ x :: post ↔
      (l = pre ∧ e = x ∧ post = []) ∨ ∃ post', post = post' ++ [e] ∧ l = pre ++ x :: post' := by
  constructor
  · intro h
    rcases List.eq_nil_or_concat post with rfl | ⟨post', y, rfl⟩
    · have := List.append_inj' h rfl
      exact Or.inl ⟨this.1, List.singleton_inj.mp this.2, rfl⟩
    · rw [List.concat_eq_append, ← List.cons_append, ← List.append_assoc] at h
      have := List.append_inj' h rfl
      refine Or.inr ⟨post', ?_, this.1⟩
      rw [List.singleton_inj.mp this.2, List.concat_eq_append]
  · intro h
    rcases h with ⟨rfl, rfl, rfl⟩ | ⟨post', rfl, rfl⟩
    · rfl
    · simp

theorem guarded_concat : Guarded P (l ++ [e]) ↔ Guarded P l ∧ P l e := by
  constructor
  · intro h
    refine ⟨?_, h l e [] rfl⟩
    intro pre x post hl
    exact h pre x (post ++ [e]) (by rw [hl]; simp)
  · intro ⟨h, he⟩ pre x post hl
    -- the event is the last one, or the old trace already had it
    rcases concat_eq_append_cons_iff.mp hl with ⟨rfl, rfl, -⟩ | ⟨post', -, hpost⟩
    · exact he
    · exact h pre x post' hpost

theorem guarded_append {l' : List ε} :
    Guarded P (l ++ l') ↔ Guarded P l ∧ Guarded (fun pre e => P (l ++ pre) e) l' := by
  induction l' using List.reverseRecOn with
  | nil =>
    rw [List.append_nil]
    exact ⟨fun h => ⟨h, guarded_nil⟩, fun h => h.1⟩
  | append_singleton l' e ih =>
    rw [← List.append_assoc, guarded_concat, guarded_concat, ih, and_assoc]

end

section
variable {π ε : Type} {R : π → ε → π → Prop}

/-- The events of `l` lead from one state of a labelled relation to another. -/
inductive Path (R : π → ε → π → Prop) : π → List ε → π → Prop
  | nil (p : π) : Path R p [] p
  | cons {p q r : π} {e : ε} {l : List ε} (h : R p e q) (t : Path R q l r) : Path R p (e :: l) r

theorem path_nil_iff {p q : π} : Path R p [] q ↔ p = q := by
  constructor
  · intro h
    cases h
    rfl
  · intro h
    subst h
    exact .nil p

theorem path_cons_iff {p r : π} {e : ε} {l : List ε} :
    Path R p (e :: l) r ↔ ∃ q, R p e q ∧ Path R q l r := by
  constructor
  · intro h
    cases h with
    | cons h t => exact ⟨_, h, t⟩
  · intro ⟨q, h, t⟩
    exact .cons h t

theorem path_append_iff {p r : π} {l m : List ε} :
    Path R p (l ++ m) r ↔ ∃ q, Path R p l q ∧ Path R q m r := by
  induction l generalizing p with
  | nil => simp [path_nil_iff]
  | cons e l ih =>
    rw [List.cons_append, path_cons_iff]
    constructor
    · intro ⟨q, h, t⟩
      obtain ⟨q', hl, hm⟩ := ih.mp t
      exact ⟨q', .cons h hl, hm⟩
    · intro ⟨q', hl, hm⟩
      obtain ⟨q, h, t⟩ := path_cons_iff.mp hl
      exact ⟨q, h, ih.mpr ⟨q', t, hm⟩⟩

/-- One more event. -/
theorem Path.concat {p q r : π} {e : ε} {l : List ε} (h : Path R p l q) (he : R q e r) :
    Path R p (l ++ [e]) r :=
  path_append_iff.mpr ⟨q, h, .cons he (.nil r)⟩

end

end Transition
end Lib
