import Mathlib

/-!
# Programs that ask questions

A program asks questions of its surroundings, calls subprograms that return a value or throw, and
continues with what it got. Two meanings of one program:

* `Prog.Eval` — the direct one: a program with the answers in order evaluates to an outcome;
* `Step` — one step of a machine with a stack of continuations, which can stand still between a
  question and its answer.

The machine agrees with the direct evaluation (`eval_of_steps`), and it has no infinite run,
whatever the answers (`wellFounded_next`).
-/

namespace Lib
namespace Interaction

/-- A program with questions in `Q`, answers in `A`, values in `V` and exceptions in `E`. -/
inductive Prog (Q A V E : Type) where
  | ret (v : V)
  | throw (e : E)
  | ask (q : Q) (k : A → Prog Q A V E)
  | call (p : Prog Q A V E) (k : Except E V → Prog Q A V E)

section
variable {Q A V E : Type}

/-- The program evaluates to the outcome when its questions are answered as in the log. -/
inductive Prog.Eval : Prog Q A V E → List (Q × A) → Except E V → Prop
  | ret (v : V) : Eval (.ret v) [] (.ok v)
  | throw (e : E) : Eval (.throw e) [] (.error e)
  | ask {q : Q} {a : A} {k : A → Prog Q A V E} {log : List (Q × A)} {x : Except E V}
    (h : Eval (k a) log x) : Eval (.ask q k) ((q, a) :: log) x
  | call {p : Prog Q A V E} {k : Except E V → Prog Q A V E} {log log' : List (Q × A)}
    {y x : Except E V} (h : Eval p log y) (hk : Eval (k y) log' x) :
    Eval (.call p k) (log ++ log') x

/-! ## The machine -/

/-- What the machine looks at. -/
inductive Focus (Q A V E : Type) where
  | eval (p : Prog Q A V E)
  | asking (q : Q) (k : A → Prog Q A V E)
  | value (x : Except E V)

/-- The focus, and the continuations of the callers, innermost first. -/
structure Conf (Q A V E : Type) where
  focus : Focus Q A V E
  stack : List (Except E V → Prog Q A V E)

/-- One step, with the questions answered in it. -/
inductive Step : Conf Q A V E → List (Q × A) → Conf Q A V E → Prop
  | ret (v : V) (ks) : Step ⟨.eval (.ret v), ks⟩ [] ⟨.value (.ok v), ks⟩
  | throw (e : E) (ks) : Step ⟨.eval (.throw e), ks⟩ [] ⟨.value (.error e), ks⟩
  | ask (q : Q) (k ks) : Step ⟨.eval (.ask q k), ks⟩ [] ⟨.asking q k, ks⟩
  | answer (q : Q) (k) (a : A) (ks) : Step ⟨.asking q k, ks⟩ [(q, a)] ⟨.eval (k a), ks⟩
  | call (p k ks) : Step ⟨.eval (.call p k), ks⟩ [] ⟨.eval p, k :: ks⟩
  | back (x k ks) : Step ⟨.value x, k :: ks⟩ [] ⟨.eval (k x), ks⟩

/-- A run of the machine with the questions answered in it. -/
inductive Steps (c : Conf Q A V E) : List (Q × A) → Conf Q A V E → Prop
  | refl : Steps c [] c
  | concat {log log' : List (Q × A)} {c' c'' : Conf Q A V E} (h : Steps c log c')
    (hs : Step c' log' c'') : Steps c (log ++ log') c''

/-! ## Agreement -/

/-- The callers evaluate to `x` when the subprogram has given `y`. -/
inductive Unwind : List (Except E V → Prog Q A V E) → Except E V → List (Q × A) → Except E V → Prop
  | nil (x : Except E V) : Unwind [] x [] x
  | cons {k : Except E V → Prog Q A V E} {ks : List (Except E V → Prog Q A V E)}
    {y z x : Except E V} {log log' : List (Q × A)} (h : (k y).Eval log z)
    (t : Unwind ks z log' x) : Unwind (k :: ks) y (log ++ log') x

/-- The focus evaluates to an outcome. -/
inductive Focus.Eval : Focus Q A V E → List (Q × A) → Except E V → Prop
  | eval {p : Prog Q A V E} {log : List (Q × A)} {x : Except E V} (h : p.Eval log x) :
    Eval (.eval p) log x
  | asking {q : Q} {a : A} {k : A → Prog Q A V E} {log : List (Q × A)} {x : Except E V}
    (h : (k a).Eval log x) : Eval (.asking q k) ((q, a) :: log) x
  | value (x : Except E V) : Eval (.value x) [] x

/-- The machine is on its way to `x`, with the questions of the log still to come. -/
def Conf.Finishes (c : Conf Q A V E) (log : List (Q × A)) (x : Except E V) : Prop :=
  ∃ log₁ log₂ y, log = log₁ ++ log₂ ∧ c.focus.Eval log₁ y ∧ Unwind c.stack y log₂ x

/-- What comes after a step, with the questions of the step in front, is what comes before it. -/
lemma Step.finishes {c c' : Conf Q A V E} {log rest : List (Q × A)} {x : Except E V}
    (h : Step c log c') (hx : c'.Finishes rest x) : c.Finishes (log ++ rest) x := by
  obtain ⟨log₁, log₂, y, rfl, hy, hu⟩ := hx
  cases h with
  | ret v ks =>
    cases hy with
    | value => exact ⟨[], log₂, .ok v, rfl, .eval (.ret v), hu⟩
  | throw e ks =>
    cases hy with
    | value => exact ⟨[], log₂, .error e, rfl, .eval (.throw e), hu⟩
  | ask q k ks =>
    cases hy with
    | asking h => exact ⟨_, log₂, y, rfl, .eval (.ask h), hu⟩
  | answer q k a ks =>
    cases hy with
    | eval h => exact ⟨(q, a) :: log₁, log₂, y, rfl, .asking h, hu⟩
  | call p k ks =>
    -- the subprogram first, then the caller from its continuation
    cases hy with
    | eval h =>
      cases hu with
      | cons hk t =>
        rename_i z logk logt
        refine ⟨log₁ ++ logk, logt, z, ?_, .eval (.call h hk), t⟩
        simp
  | back v k ks =>
    cases hy with
    | eval h => exact ⟨[], log₁ ++ log₂, v, rfl, .value v, .cons h hu⟩

lemma Steps.finishes {c c' : Conf Q A V E} {log rest : List (Q × A)} {x : Except E V}
    (h : Steps c log c') (hx : c'.Finishes rest x) : c.Finishes (log ++ rest) x := by
  induction h generalizing rest with
  | refl => exact hx
  | concat h hs ih =>
    rw [List.append_assoc]
    exact ih (hs.finishes hx)

/-- **Agreement.** A run of the machine to a value is an evaluation with the same log. -/
theorem eval_of_steps {p : Prog Q A V E} {log : List (Q × A)} {x : Except E V}
    (h : Steps ⟨.eval p, []⟩ log ⟨.value x, []⟩) : p.Eval log x := by
  have hend : Conf.Finishes (⟨.value x, []⟩ : Conf Q A V E) [] x :=
    ⟨[], [], x, rfl, .value x, .nil x⟩
  obtain ⟨log₁, log₂, y, hlog, hy, hu⟩ := h.finishes hend
  cases hu
  cases hy with
  | eval hp =>
    rw [List.append_nil, List.append_nil] at hlog
    exact hlog ▸ hp

/-! ## Termination -/

/-- `c'` comes right after `c`. -/
def Next (c' c : Conf Q A V E) : Prop := ∃ log, Step c log c'

/-- A program terminates on a stack on which every value does. -/
lemma acc_eval (p : Prog Q A V E) {ks : List (Except E V → Prog Q A V E)}
    (h : ∀ x, Acc Next (⟨.value x, ks⟩ : Conf Q A V E)) :
    Acc Next (⟨.eval p, ks⟩ : Conf Q A V E) := by
  induction p generalizing ks with
  | ret v =>
    refine ⟨_, ?_⟩
    rintro c ⟨log, hs⟩
    cases hs
    exact h _
  | throw e =>
    refine ⟨_, ?_⟩
    rintro c ⟨log, hs⟩
    cases hs
    exact h _
  | ask q k ih =>
    have hasking : Acc Next (⟨.asking q k, ks⟩ : Conf Q A V E) := by
      refine ⟨_, ?_⟩
      rintro c ⟨log, hs⟩
      cases hs
      exact ih _ h
    refine ⟨_, ?_⟩
    rintro c ⟨log, hs⟩
    cases hs
    exact hasking
  | call p k ihp ihk =>
    have hback : ∀ x, Acc Next (⟨.value x, k :: ks⟩ : Conf Q A V E) := by
      intro x
      refine ⟨_, ?_⟩
      rintro c ⟨log, hs⟩
      cases hs
      exact ihk x h
    refine ⟨_, ?_⟩
    rintro c ⟨log, hs⟩
    cases hs
    exact ihp hback

lemma acc_value (ks : List (Except E V → Prog Q A V E)) (x : Except E V) :
    Acc Next (⟨.value x, ks⟩ : Conf Q A V E) := by
  induction ks generalizing x with
  | nil =>
    refine ⟨_, ?_⟩
    rintro c ⟨log, hs⟩
    cases hs
  | cons k ks ih =>
    refine ⟨_, ?_⟩
    rintro c ⟨log, hs⟩
    cases hs
    exact acc_eval _ ih

/-- **Termination.** The machine has no infinite run, whatever the answers. -/
theorem wellFounded_next : WellFounded (@Next Q A V E) := by
  refine ⟨fun c => ?_⟩
  obtain ⟨focus, ks⟩ := c
  cases focus with
  | eval p => exact acc_eval p (acc_value ks)
  | asking q k =>
    refine ⟨_, ?_⟩
    rintro c ⟨log, hs⟩
    cases hs
    exact acc_eval _ (acc_value ks)
  | value x => exact acc_value ks x

end

end Interaction
end Lib
