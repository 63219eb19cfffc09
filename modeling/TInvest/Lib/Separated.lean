import Mathlib

/-!
# Texts joined by a separator

Two ways to cut a text `a ++ s :: b` uniquely: at the first separator, when `a` has none,
and at the last one, when `b` has none. Together they invert keys that are built by
concatenation with a separator, whatever the parts in between contain.
-/

namespace Lib
namespace Separated

variable {α : Type*} {s : α} {a b c d : List α}

/-- Cutting at the first separator. -/
lemma append_cons_inj_left (ha : s ∉ a) (hc : s ∉ c) :
    a ++ s :: b = c ++ s :: d ↔ a = c ∧ b = d := by
  constructor
  · intro h
    rcases List.append_eq_append_iff.mp h with ⟨t, hct, hbt⟩ | ⟨t, hat, hdt⟩
    · -- the second prefix is the longer one: what it adds starts with the separator
      cases t with
      | nil => exact ⟨by simpa using hct.symm, by simpa using hbt⟩
      | cons x t =>
        obtain ⟨rfl, -⟩ := List.cons.inj hbt
        exact absurd (by rw [hct]; simp) hc
    · -- and the other way round
      cases t with
      | nil => exact ⟨by simpa using hat, by simpa using hdt.symm⟩
      | cons x t =>
        obtain ⟨rfl, -⟩ := List.cons.inj hdt
        exact absurd (by rw [hat]; simp) ha
  · intro ⟨hac, hbd⟩
    rw [hac, hbd]

/-- Cutting at the last separator. -/
lemma append_cons_inj_right (hb : s ∉ b) (hd : s ∉ d) :
    a ++ s :: b = c ++ s :: d ↔ a = c ∧ b = d := by
  -- read backwards, the last separator is the first
  rw [← List.reverse_inj, List.reverse_append, List.reverse_append, List.reverse_cons,
    List.reverse_cons, List.append_assoc, List.append_assoc, List.singleton_append,
    List.singleton_append, append_cons_inj_left (by simpa using hb) (by simpa using hd),
    List.reverse_inj, List.reverse_inj, and_comm]

/-- A text without the separator is not one with it. -/
lemma ne_append_cons (ha : s ∉ a) : a ≠ c ++ s :: d := by
  intro h
  rw [h] at ha
  exact ha (by simp)

end Separated
end Lib
