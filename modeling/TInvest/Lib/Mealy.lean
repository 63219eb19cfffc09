import Mathlib

/-!
# Machines with output

A machine reads a list of inputs and answers each with an output: `step s x` is the next state
and the output. `after` is the state after a list of inputs, `outputs` the list of the answers.
An output is determined by the inputs up to its own (`getElem?_outputs`), so what the machine
answers is known once its states are; a function of the inputs that follows every step is the state
(`foldl_eq_of_step`). Two machines whose states stay related answer alike, also when the second one
reads translated inputs (`outputs_eq_of_simulation`).
-/

namespace Lib
namespace Mealy

variable {σ α β : Type*} (step : σ → α → σ × β)

/-- The state after the inputs. -/
def after (s : σ) (xs : List α) : σ := xs.foldl (fun s x => (step s x).1) s

/-- The answers to the inputs. -/
def outputs : σ → List α → List β
  | _, [] => []
  | s, x :: xs => (step s x).2 :: outputs (step s x).1 xs

lemma after_append (s : σ) (xs ys : List α) :
    after step s (xs ++ ys) = after step (after step s xs) ys :=
  List.foldl_append

lemma after_concat (s : σ) (xs : List α) (x : α) :
    after step s (xs ++ [x]) = (step (after step s xs) x).1 := by
  rw [after_append]
  rfl

/-- **The state as a function of the inputs**: it is one when it starts with the first state and
follows every step. -/
theorem foldl_eq_of_step {f : σ → α → σ} {s : σ} (state : List α → σ) (hinit : s = state [])
    (hstep : ∀ xs x, f (state xs) x = state (xs ++ [x])) (xs : List α) :
    xs.foldl f s = state xs := by
  induction xs using List.reverseRecOn with
  | nil => exact hinit
  | append_singleton xs x ih => rw [List.foldl_concat, ih, hstep]

/-- The same for a machine. -/
lemma after_eq_of_step {s : σ} (state : List α → σ) (hinit : s = state [])
    (hstep : ∀ xs x, (step (state xs) x).1 = state (xs ++ [x])) (xs : List α) :
    after step s xs = state xs :=
  foldl_eq_of_step state hinit hstep xs

lemma outputs_append (s : σ) (xs ys : List α) :
    outputs step s (xs ++ ys) = outputs step s xs ++ outputs step (after step s xs) ys := by
  induction xs generalizing s with
  | nil => rfl
  | cons x xs ih =>
    rw [List.cons_append, outputs, ih, outputs, List.cons_append]
    rfl

lemma outputs_concat (s : σ) (xs : List α) (x : α) :
    outputs step s (xs ++ [x]) = outputs step s xs ++ [(step (after step s xs) x).2] := by
  rw [outputs_append]
  rfl

@[simp] lemma length_outputs (s : σ) (xs : List α) : (outputs step s xs).length = xs.length := by
  induction xs generalizing s with
  | nil => rfl
  | cons x xs ih => rw [outputs, List.length_cons, ih, List.length_cons]

/-- One answer: the state is the one after the inputs before it. -/
lemma getElem?_outputs (s : σ) (xs : List α) (i : ℕ) :
    (outputs step s xs)[i]? = xs[i]?.map fun x => (step (after step s (xs.take i)) x).2 := by
  induction xs generalizing s i with
  | nil => rfl
  | cons x xs ih =>
    cases i with
    | zero => rfl
    | succ i => exact ih (step s x).1 i

/-- The answers to the first inputs are the first answers. -/
lemma outputs_take (s : σ) (xs : List α) (i : ℕ) :
    outputs step s (xs.take i) = (outputs step s xs).take i := by
  induction xs generalizing s i with
  | nil => simp [outputs]
  | cons x xs ih =>
    cases i with
    | zero => rfl
    | succ i => exact congrArg (List.cons (step s x).2) (ih (step s x).1 i)

/-- **Simulation.** If related states answer alike and stay related, when the second machine reads
each input through `f`, then the machines answer alike from related states. -/
theorem outputs_eq_of_simulation {τ γ : Type*} {step : σ → α → σ × β} {step' : τ → γ → τ × β}
    {R : σ → τ → Prop} (f : α → γ)
    (hstep : ∀ s t x, R s t →
      R (step s x).1 (step' t (f x)).1 ∧ (step' t (f x)).2 = (step s x).2)
    {s : σ} {t : τ} (h : R s t) (xs : List α) :
    outputs step' t (xs.map f) = outputs step s xs := by
  induction xs generalizing s t with
  | nil => rfl
  | cons x xs ih =>
    obtain ⟨hnext, hanswer⟩ := hstep s t x h
    rw [List.map_cons, outputs, outputs, hanswer, ih hnext]

end Mealy
end Lib
