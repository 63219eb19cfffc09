import Mathlib

/-!
# Sliding windows

A queue of bounded length: a value enters at the back, and when there are too many the front
leaves. The queue that holds the last `n` values of a stream, `vs.rtake n`, holds them again after
the next one (`push_rtake`), so what is computed from the queue is a batch quantity of the stream.
-/

namespace Lib
namespace SlidingWindow

variable {α β : Type*}

/-- The queue after one value. -/
def push (n : ℕ) (queue : List α) (v : α) : List α :=
  if n < (queue ++ [v]).length then (queue ++ [v]).tail else queue ++ [v]

@[simp] lemma length_rtake (vs : List α) (n : ℕ) : (vs.rtake n).length = min n vs.length := by
  rw [List.rtake, List.length_drop]
  omega

/-- The queue is full when there have been enough values. -/
lemma length_rtake_eq_iff {vs : List α} {n : ℕ} : (vs.rtake n).length = n ↔ n ≤ vs.length := by
  rw [length_rtake, min_eq_left_iff]

lemma rtake_of_length_le {vs : List α} {n : ℕ} (h : vs.length ≤ n) : vs.rtake n = vs := by
  rw [List.rtake, Nat.sub_eq_zero_of_le h, List.drop_zero]

/-- A window takes no more values than there are. -/
lemma rtake_min_length (vs : List α) (n : ℕ) : vs.rtake (min vs.length n) = vs.rtake n := by
  have hdrop : vs.length - min vs.length n = vs.length - n := by omega
  rw [List.rtake, List.rtake, hdrop]

lemma map_rtake (f : α → β) (vs : List α) (n : ℕ) : (vs.rtake n).map f = (vs.map f).rtake n := by
  rw [List.rtake, List.rtake, List.map_drop, List.length_map]

/-- The newest value is in every window. -/
lemma mem_rtake_concat {n : ℕ} (hn : 1 ≤ n) (vs : List α) (v : α) : v ∈ (vs ++ [v]).rtake n := by
  obtain ⟨m, rfl⟩ : ∃ m, n = m + 1 := ⟨n - 1, by omega⟩
  rw [List.rtake_concat_succ]
  exact List.mem_concat_self

/-- **The queue holds the last values**: the front leaves exactly when the window of the longer
stream starts later. -/
theorem push_rtake (n : ℕ) (vs : List α) (v : α) : push n (vs.rtake n) v = (vs ++ [v]).rtake n := by
  have hlen : (vs.rtake n ++ [v]).length = min n vs.length + 1 := by simp
  rw [push, hlen]
  split
  · have hle : n ≤ vs.length := by omega
    have hdrop : (vs ++ [v]).length - n = vs.length - n + 1 := by
      rw [List.length_append, List.length_singleton]
      omega
    rw [List.rtake, List.rtake, hdrop, ← List.drop_append_of_le_length (Nat.sub_le ..),
      List.tail_drop]
  · have hlt : vs.length < n := by omega
    rw [rtake_of_length_le hlt.le, rtake_of_length_le]
    simpa using hlt

/-- The sum of the queue can be kept up to date. -/
lemma sum_push [AddCommGroup α] (n : ℕ) (queue : List α) (v : α) :
    (push n queue v).sum =
      if n < (queue ++ [v]).length then queue.sum + v - (queue ++ [v]).headD 0
      else queue.sum + v := by
  have hsum : (queue ++ [v]).sum = queue.sum + v := by simp
  rw [push]
  split
  · rw [← hsum]
    cases queue with
    | nil => simp
    | cons q queue => simp
  · exact hsum

end SlidingWindow
end Lib
