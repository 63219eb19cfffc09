import TInvest.Lib.Mealy
import TInvest.Lib.Transition

/-!
# Fixed-window counters

A counter admits at most `limit` requests in a window. A request that comes at least `W` after
the window was opened opens the next one. The log of a counter holds the windows it opened and
the requests it admitted and refused.

* `Counted` — the count is the number of admissions since the last opening, so no stretch of the
  log without an opening holds more than `limit` of them;
* `Timed` — with a clock that does not go back, windows open with an admission and at least `W`
  apart, so no interval of length `W` holds more than `2 * limit - 1` admissions, and a counter
  that refuses has admitted `limit` requests less than `W` ago;
* `Replayed` — the log is what a fresh counter answers to the times of its requests, so counters
  with one limit that are asked at the same times have the same log (`Replayed.eq`), and one with a
  higher limit admits what the other does (`Replayed.admissions_sublist`).
-/

namespace Lib
namespace FixedWindow

open Transition

/-- A counter and the time its window was opened. -/
structure Counter (T : Type) where
  limit : ℕ
  count : ℕ
  start : T

/-- What a log holds. -/
inductive Mark (T : Type) where
  | opened (t : T)
  | admitted (t : T)
  | refused (t : T)

section

variable {T : Type}

/-- The times of the admissions. -/
def admissions (log : List (Mark T)) : List T :=
  log.filterMap fun
    | .admitted t => some t
    | _ => none

/-- One mark, read into the admissions before the last opening and those since. -/
def splitStep (p : List T × List T) : Mark T → List T × List T
  | .opened _ => (p.1 ++ p.2, [])
  | .admitted t => (p.1, p.2 ++ [t])
  | .refused _ => p

/-- The admissions before the last opening, and those since. -/
def split (log : List (Mark T)) : List T × List T := log.foldl splitStep ([], [])

lemma split_concat (log : List (Mark T)) (e : Mark T) :
    split (log ++ [e]) = splitStep (split log) e := by
  rw [split, List.foldl_append]
  rfl

lemma admissions_append (log log' : List (Mark T)) :
    admissions (log ++ log') = admissions log ++ admissions log' :=
  List.filterMap_append

lemma admissions_eq_split (log : List (Mark T)) :
    admissions log = (split log).1 ++ (split log).2 := by
  induction log using List.reverseRecOn with
  | nil => rfl
  | append_singleton log e ih =>
    rw [admissions_append, split_concat, ih]
    cases e with
    | opened t => simp [splitStep, admissions]
    | admitted t => simp [splitStep, admissions]
    | refused t => simp [splitStep, admissions]

/-- A stretch without an opening belongs to the current window. -/
lemma split_append_of_not_opened (pre : List (Mark T)) {seg : List (Mark T)}
    (h : ∀ t, Mark.opened t ∉ seg) :
    (split (pre ++ seg)).2 = (split pre).2 ++ admissions seg := by
  induction seg using List.reverseRecOn with
  | nil => simp [admissions]
  | append_singleton seg e ih =>
    have hseg : ∀ t, Mark.opened t ∉ seg := fun t ht => h t (List.mem_append_left _ ht)
    rw [← List.append_assoc, split_concat, admissions_append]
    cases e with
    | opened t => exact absurd (List.mem_append_right _ (List.mem_singleton_self _)) (h t)
    | admitted t => simp [splitStep, admissions, ih hseg]
    | refused t => simp [splitStep, admissions, ih hseg]

/-- No stretch of the log without an opening holds more than `n` admissions. -/
def WindowsLe (n : ℕ) (log : List (Mark T)) : Prop :=
  ∀ pre seg post, log = pre ++ (seg ++ post) → (∀ t, Mark.opened t ∉ seg) →
    (admissions seg).length ≤ n

lemma windowsLe_concat {n : ℕ} {log : List (Mark T)} {e : Mark T} (h : WindowsLe n log)
    (hcur : (split (log ++ [e])).2.length ≤ n) : WindowsLe n (log ++ [e]) := by
  intro pre seg post hlog hopen
  rcases List.eq_nil_or_concat post with hnil | ⟨post', x, hpost⟩
  · -- a stretch at the end of the log belongs to the current window
    rw [hnil, List.append_nil] at hlog
    rw [hlog, split_append_of_not_opened pre hopen, List.length_append] at hcur
    omega
  · rw [hpost, List.concat_eq_append, ← List.append_assoc, ← List.append_assoc] at hlog
    have hcut := (List.append_inj' hlog rfl).1
    exact h pre seg post' (by rw [hcut, List.append_assoc]) hopen

/-- The count of a counter with the given log. -/
structure Counted (c : Counter T) (log : List (Mark T)) : Prop where
  count_eq : c.count = (split log).2.length
  count_le : c.count ≤ c.limit
  windows : WindowsLe c.limit log

lemma counted_fresh (n : ℕ) (t : T) : Counted ⟨n, 0, t⟩ ([] : List (Mark T)) := by
  refine ⟨rfl, Nat.zero_le n, ?_⟩
  intro pre seg post hlog _
  have hnil : seg = [] := by
    have h := congrArg List.length hlog
    simp only [List.length_nil, List.length_append] at h
    exact List.length_eq_zero_iff.mp (by omega)
  rw [hnil]
  exact Nat.zero_le n

/-- A mark keeps the count if the new window is counted. -/
lemma Counted.concat {c c' : Counter T} {log : List (Mark T)} {e : Mark T} (h : Counted c log)
    (hlimit : c'.limit = c.limit) (hcount : c'.count = (splitStep (split log) e).2.length)
    (hle : c'.count ≤ c.limit) : Counted c' (log ++ [e]) := by
  have hcur : (split (log ++ [e])).2.length ≤ c.limit := by
    rw [split_concat, ← hcount]
    exact hle
  refine ⟨by rw [split_concat, hcount], by omega, ?_⟩
  rw [hlimit]
  exact windowsLe_concat h.windows hcur

end

section

variable {T : Type} [CommRing T] [LinearOrder T] {W now : T} {c : Counter T}

/-- One request: roll the window over if it is due, then admit or refuse. -/
def Counter.step (W now : T) (c : Counter T) : Counter T × List (Mark T) :=
  let due := W ≤ now - c.start
  let c := if due then { c with count := 0, start := now } else c
  let marks := if due then [Mark.opened now] else []
  if c.count < c.limit then ({ c with count := c.count + 1 }, marks ++ [.admitted now])
  else (c, marks ++ [.refused now])

/-- A request after the end of the window opens the next one. -/
lemma Counter.step_of_due (hpos : 0 < c.limit) (hdue : W ≤ now - c.start) :
    c.step W now = (⟨c.limit, 1, now⟩, [.opened now, .admitted now]) := by
  simp only [Counter.step, if_pos hdue, if_pos hpos]
  rfl

/-- A request in a window with room enters it. -/
lemma Counter.step_of_room (hnot : now - c.start < W) (hlt : c.count < c.limit) :
    c.step W now = ({ c with count := c.count + 1 }, [.admitted now]) := by
  simp only [Counter.step, if_neg (not_le.mpr hnot), if_pos hlt]
  rfl

/-- A request in a full window is refused. -/
lemma Counter.step_of_full (hnot : now - c.start < W) (hge : c.limit ≤ c.count) :
    c.step W now = (c, [.refused now]) := by
  simp only [Counter.step, if_neg (not_le.mpr hnot), if_neg (not_lt.mpr hge)]
  rfl

/-- What a request can do. -/
lemma Counter.step_cases (W now : T) (hpos : 0 < c.limit) :
    (W ≤ now - c.start ∧
      c.step W now = (⟨c.limit, 1, now⟩, [.opened now, .admitted now])) ∨
    (now - c.start < W ∧ c.count < c.limit ∧
      c.step W now = ({ c with count := c.count + 1 }, [.admitted now])) ∨
    (now - c.start < W ∧ c.limit ≤ c.count ∧ c.step W now = (c, [.refused now])) := by
  rcases le_or_gt W (now - c.start) with hdue | hnot
  · exact Or.inl ⟨hdue, Counter.step_of_due hpos hdue⟩
  · rcases lt_or_ge c.count c.limit with hlt | hge
    · exact Or.inr (Or.inl ⟨hnot, hlt, Counter.step_of_room hnot hlt⟩)
    · exact Or.inr (Or.inr ⟨hnot, hge, Counter.step_of_full hnot hge⟩)

/-- A request keeps the count. -/
lemma Counted.step {log : List (Mark T)} (h : Counted c log) (hpos : 0 < c.limit) (W now : T) :
    Counted (c.step W now).1 (log ++ (c.step W now).2) := by
  rcases Counter.step_cases W now hpos with ⟨-, hstep⟩ | ⟨-, hlt, hstep⟩ | ⟨-, hge, hstep⟩
  · rw [hstep, show [Mark.opened now, Mark.admitted now] = [Mark.opened now] ++ [.admitted now]
      from rfl, ← List.append_assoc]
    have hopen : Counted ⟨c.limit, 0, now⟩ (log ++ [Mark.opened now]) :=
      h.concat rfl rfl (Nat.zero_le _)
    refine hopen.concat rfl ?_ hpos
    rw [split_concat]
    rfl
  · rw [hstep]
    refine h.concat rfl ?_ hlt
    show c.count + 1 = ((split log).2 ++ [now]).length
    rw [List.length_append, ← h.count_eq]
    rfl
  · rw [hstep]
    exact h.concat rfl h.count_eq h.count_le

end

/-! ## Replays -/

section

variable {T : Type}

/-- The times of the requests. -/
def requests (log : List (Mark T)) : List T :=
  log.filterMap fun
    | .opened _ => none
    | .admitted t => some t
    | .refused t => some t

lemma requests_append (log log' : List (Mark T)) :
    requests (log ++ log') = requests log ++ requests log' :=
  List.filterMap_append

variable [CommRing T] [LinearOrder T] {W now : T} {c : Counter T} {log : List (Mark T)}

/-- The counter after requests at the given times. -/
def Counter.asked (W : T) (c : Counter T) (times : List T) : Counter T :=
  Mealy.after (fun c now => c.step W now) c times

/-- Its log. -/
def Counter.logged (W : T) (c : Counter T) (times : List T) : List (Mark T) :=
  (Mealy.outputs (fun c now => c.step W now) c times).flatten

lemma Counter.asked_concat (c : Counter T) (times : List T) :
    c.asked W (times ++ [now]) = ((c.asked W times).step W now).1 :=
  Mealy.after_concat ..

lemma Counter.logged_concat (c : Counter T) (times : List T) :
    c.logged W (times ++ [now]) = c.logged W times ++ ((c.asked W times).step W now).2 := by
  rw [Counter.logged, Mealy.outputs_concat, List.flatten_append, List.flatten_singleton]
  rfl

/-- A request is in the log once. -/
lemma Counter.requests_step (c : Counter T) : requests (c.step W now).2 = [now] := by
  simp only [Counter.step]
  split <;> split <;> rfl

lemma Counter.step_limit (c : Counter T) : (c.step W now).1.limit = c.limit := by
  simp only [Counter.step]
  split <;> split <;> rfl

/-- The counter and its log are what a fresh counter makes of the times of the requests. -/
def Replayed (W : T) (c : Counter T) (log : List (Mark T)) : Prop :=
  Counter.asked W ⟨c.limit, 0, 0⟩ (requests log) = c ∧
    Counter.logged W ⟨c.limit, 0, 0⟩ (requests log) = log

lemma replayed_fresh (W : T) (n : ℕ) : Replayed W ⟨n, 0, 0⟩ ([] : List (Mark T)) := ⟨rfl, rfl⟩

lemma Replayed.step (h : Replayed W c log) (now : T) :
    Replayed W (c.step W now).1 (log ++ (c.step W now).2) := by
  obtain ⟨hcounter, hlog⟩ := h
  rw [Replayed, requests_append, Counter.requests_step, Counter.step_limit, Counter.asked_concat,
    Counter.logged_concat, hcounter, hlog]
  exact ⟨rfl, rfl⟩

/-- **Isolation**: the limit and the times of the requests determine the counter and its log. -/
theorem Replayed.eq {c' : Counter T} {log' : List (Mark T)} (h : Replayed W c log)
    (h' : Replayed W c' log') (hlimit : c.limit = c'.limit)
    (htimes : requests log = requests log') : c = c' ∧ log = log' := by
  obtain ⟨hcounter, hlog⟩ := h
  obtain ⟨hcounter', hlog'⟩ := h'
  rw [hlimit, htimes] at hcounter hlog
  exact ⟨hcounter.symm.trans hcounter', hlog.symm.trans hlog'⟩

/-- Two counters that were asked at the same times: they opened the same windows, and the one with
the lower limit is full where it lags behind. -/
structure Lags (c c' : Counter T) : Prop where
  limit : c.limit ≤ c'.limit
  start : c.start = c'.start
  count : c.count = c'.count ∨ c.limit ≤ c.count

/-- What the lower limit admits, the higher one does. -/
lemma Lags.step {c' : Counter T} (h : Lags c c') (hpos : 0 < c.limit) (W now : T) :
    Lags (c.step W now).1 (c'.step W now).1 ∧
      (admissions (c.step W now).2).Sublist (admissions (c'.step W now).2) := by
  obtain ⟨hlimit, hstart, hcount⟩ := h
  have hpos' : 0 < c'.limit := by omega
  rcases Counter.step_cases W now hpos with ⟨hdue, hstep⟩ | ⟨hnot, hlt, hstep⟩ | ⟨hnot, hge, hstep⟩
  · -- a due window is due for both
    rw [hstart] at hdue
    rw [hstep, Counter.step_of_due hpos' hdue]
    exact ⟨⟨hlimit, rfl, Or.inl rfl⟩, List.Sublist.refl _⟩
  · rw [hstart] at hnot
    have heq : c.count = c'.count := by omega
    rw [hstep, Counter.step_of_room hnot (by omega)]
    exact ⟨⟨hlimit, hstart, Or.inl (by rw [heq])⟩, List.Sublist.refl _⟩
  · rw [hstart] at hnot
    rw [hstep]
    rcases lt_or_ge c'.count c'.limit with hlt' | hge'
    · rw [Counter.step_of_room hnot hlt']
      exact ⟨⟨hlimit, hstart, Or.inr hge⟩, List.nil_sublist _⟩
    · rw [Counter.step_of_full hnot hge']
      exact ⟨⟨hlimit, hstart, hcount⟩, List.Sublist.refl _⟩

lemma lags_asked {n n' : ℕ} (hpos : 0 < n) (hle : n ≤ n') (W : T) (times : List T) :
    Lags (Counter.asked W ⟨n, 0, 0⟩ times) (Counter.asked W ⟨n', 0, 0⟩ times) ∧
      (Counter.asked W ⟨n, 0, 0⟩ times).limit = n ∧
      (admissions (Counter.logged W ⟨n, 0, 0⟩ times)).Sublist
        (admissions (Counter.logged W ⟨n', 0, 0⟩ times)) := by
  induction times using List.reverseRecOn with
  | nil => exact ⟨⟨hle, rfl, Or.inl rfl⟩, rfl, List.Sublist.refl _⟩
  | append_singleton times now ih =>
    obtain ⟨hlags, hlimit, hsub⟩ := ih
    obtain ⟨hlags', hsub'⟩ := hlags.step (by rw [hlimit]; exact hpos) W now
    simp only [Counter.asked_concat, Counter.logged_concat, admissions_append]
    exact ⟨hlags', by rw [Counter.step_limit, hlimit], hsub.append hsub'⟩

/-- **A higher limit admits more**: asked at the same times, it admits what the lower one does. -/
theorem Replayed.admissions_sublist {c' : Counter T} {log' : List (Mark T)} (h : Replayed W c log)
    (h' : Replayed W c' log') (hpos : 0 < c.limit) (hle : c.limit ≤ c'.limit)
    (htimes : requests log = requests log') :
    (admissions log).Sublist (admissions log') := by
  have hsub := (lags_asked hpos hle W (requests log)).2.2
  rw [h.2] at hsub
  rw [htimes, h'.2] at hsub
  exact hsub

end

/-! ## With a clock -/

section

variable {T : Type} [CommRing T] [LinearOrder T]

/-- The admissions in the half-open interval of length `W` from `t`. -/
def inInterval (W t : T) (times : List T) : ℕ := times.countP fun a => t ≤ a ∧ a < t + W

/-- A refusal in a log comes with `n` admissions of its window, less than `W` ago. -/
def Exhausted (W : T) (n : ℕ) (pre : List (Mark T)) (e : Mark T) : Prop :=
  ∀ now, e = .refused now → (split pre).2.length = n ∧ ∀ a ∈ (split pre).2, now - a < W

/-- A counter whose clock does not go back, with its log. The fields that are about one part of
the log are about the admissions before the current window. -/
structure Timed (W : T) (c : Counter T) (log : List (Mark T)) : Prop extends Counted c log where
  unused : (split log).2 = [] → (split log).1 = [] ∧ c.start = 0
  opens : ∀ a ∈ (split log).2.head?, a = c.start
  current : ∀ a ∈ (split log).2, c.start ≤ a
  past : ∀ a ∈ (split log).1, a ≤ c.start
  recent : ∀ t, c.start - W < t → (split log).1.countP (fun a => t ≤ a) ≤ c.limit - 1
  spaced : (split log).1 ≠ [] → ∃ a ∈ (split log).1, a + W ≤ c.start
  interval : ∀ t, inInterval W t (split log).1 ≤ 2 * c.limit - 1
  fresh : ∀ t, (∀ a ∈ (split log).1, t ≤ a) → inInterval W t (split log).1 ≤ c.limit
  refusals : Guarded (Exhausted W c.limit) log

lemma timed_fresh (W : T) (n : ℕ) : Timed W ⟨n, 0, 0⟩ ([] : List (Mark T)) where
  toCounted := counted_fresh n 0
  unused := fun _ => ⟨rfl, rfl⟩
  opens := by simp [split]
  current := by simp [split]
  past := by simp [split]
  recent := by simp [split]
  spaced := fun h => absurd rfl h
  interval := by simp [split, inInterval]
  fresh := by simp [split, inInterval]
  refusals := guarded_nil

lemma inInterval_append (W t : T) (l l' : List T) :
    inInterval W t (l ++ l') = inInterval W t l + inInterval W t l' :=
  List.countP_append

lemma inInterval_le_length (W t : T) (l : List T) : inInterval W t l ≤ l.length :=
  List.countP_le_length

lemma inInterval_eq_zero {W t : T} {l : List T} (h : ∀ a ∈ l, t ≤ a → ¬ a < t + W) :
    inInterval W t l = 0 := by
  rw [inInterval, List.countP_eq_zero]
  intro a ha hin
  simp only [decide_eq_true_eq] at hin
  exact h a ha hin.1 hin.2

variable [IsStrictOrderedRing T] {W now : T} {c : Counter T} {log : List (Mark T)}

/-- **Any interval of the length of a window** holds at most `2 * limit - 1` admissions. -/
lemma Timed.interval_le (h : Timed W c log) (hpos : 0 < c.limit) (t : T) :
    inInterval W t (admissions log) ≤ 2 * c.limit - 1 := by
  rw [admissions_eq_split, inInterval_append]
  have hcount := h.count_eq
  have hle := h.count_le
  by_cases hcur : ∃ a ∈ (split log).2, t ≤ a ∧ a < t + W
  · -- the interval reaches into the current window, so the admission that opened the one
    -- before lies in front of it
    obtain ⟨a, ha, -, hlt⟩ := hcur
    have hstart := h.current a ha
    have hrecent := h.recent t (by linarith)
    have hpast : inInterval W t (split log).1 ≤ (split log).1.countP (fun a => t ≤ a) := by
      refine List.countP_mono_left fun x _ hx => ?_
      simp only [decide_eq_true_eq] at hx ⊢
      exact hx.1
    have hlen := inInterval_le_length W t (split log).2
    omega
  · have hzero : inInterval W t (split log).2 = 0 :=
      inInterval_eq_zero fun a ha hta hlt => hcur ⟨a, ha, hta, hlt⟩
    have hpast := h.interval t
    omega

/-- An interval that starts before the first admission holds at most `limit` of them. -/
lemma Timed.interval_le_of_fresh (h : Timed W c log) {t : T} (ht : ∀ a ∈ admissions log, t ≤ a) :
    inInterval W t (admissions log) ≤ c.limit := by
  rw [admissions_eq_split] at ht ⊢
  rw [inInterval_append]
  have hcount := h.count_eq
  have hle := h.count_le
  have hpast := h.fresh t (fun a ha => ht a (List.mem_append_left _ ha))
  by_cases hnil : (split log).1 = []
  · have hlen := inInterval_le_length W t (split log).2
    rw [hnil]
    simp only [inInterval, List.countP_nil, Nat.zero_add] at hlen ⊢
    omega
  · -- the current window was opened after the end of the interval
    obtain ⟨a, ha, hspace⟩ := h.spaced hnil
    have hta := ht a (List.mem_append_left _ ha)
    have hzero : inInterval W t (split log).2 = 0 := by
      refine inInterval_eq_zero fun x hx _ hlt => ?_
      have hstart := h.current x hx
      linarith
    omega

/-- After the start of the current window less than `limit` requests were admitted: the one that
opened it is not among them. -/
lemma Timed.countP_after_start_le (h : Timed W c log) {t : T} (ht : c.start < t) :
    (admissions log).countP (fun a => t ≤ a) ≤ c.limit - 1 := by
  have hpast : (split log).1.countP (fun a => t ≤ a) = 0 := by
    rw [List.countP_eq_zero]
    intro a ha hta
    have hle := h.past a ha
    simp only [decide_eq_true_eq] at hta
    linarith
  rw [admissions_eq_split, List.countP_append, hpast, Nat.zero_add]
  have hcount := h.count_eq
  have hle := h.count_le
  cases hcur : (split log).2 with
  | nil => simp
  | cons a cur =>
    have ha : a = c.start := h.opens a (by rw [hcur]; rfl)
    rw [List.countP_cons_of_neg (by simp [ha, ht])]
    have hlen : cur.countP (fun a => decide (t ≤ a)) ≤ cur.length := List.countP_le_length
    rw [hcur, List.length_cons] at hcount
    omega

omit [IsStrictOrderedRing T] in
/-- A counter that was used has admitted a request at the start of its window. -/
lemma Timed.start_mem (h : Timed W c log) (hne : admissions log ≠ []) :
    c.start ∈ admissions log := by
  rw [admissions_eq_split] at hne ⊢
  cases hcur : (split log).2 with
  | nil =>
    have hnil := (h.unused hcur).1
    rw [hcur, hnil] at hne
    exact absurd rfl hne
  | cons a cur =>
    have ha : a = c.start := h.opens a (by rw [hcur]; rfl)
    rw [ha]
    simp

/-! ### One request -/

/-- The first request after the window is over opens the next one. -/
lemma Timed.opened (h : Timed W c log) (hpos : 0 < c.limit) (hdue : W ≤ now - c.start)
    (hclock : ∀ a ∈ admissions log, a ≤ now)
    (hcounted : Counted ⟨c.limit, 1, now⟩ (log ++ [.opened now] ++ [.admitted now])) :
    Timed W ⟨c.limit, 1, now⟩ (log ++ [.opened now] ++ [.admitted now]) := by
  have hsplit : split (log ++ [.opened now] ++ [.admitted now]) = (admissions log, [now]) := by
    rw [split_concat, split_concat, admissions_eq_split]
    rfl
  refine ⟨hcounted, ?_, ?_, ?_, ?_, ?_, ?_, ?_, ?_, ?_⟩
  · rw [hsplit]
    intro hnil
    exact absurd hnil (by simp)
  · rw [hsplit]
    simp
  · rw [hsplit]
    simp
  · rw [hsplit]
    exact hclock
  · -- only the last window reaches that far back, and not its first admission
    rw [hsplit]
    intro t ht
    have hlater : c.start < t := by
      simp only at ht
      linarith
    exact h.countP_after_start_le hlater
  · rw [hsplit]
    intro hne
    refine ⟨c.start, h.start_mem hne, ?_⟩
    show c.start + W ≤ now
    linarith
  · rw [hsplit]
    exact h.interval_le hpos
  · rw [hsplit]
    exact fun t ht => h.interval_le_of_fresh ht
  · rw [guarded_concat, guarded_concat]
    refine ⟨⟨h.refusals, ?_⟩, ?_⟩ <;> intro t ht <;> exact absurd ht (by simp)

omit [IsStrictOrderedRing T] in
/-- A request in the current window adds to it or is refused. -/
lemma Timed.inWindow {c' : Counter T} {e : Mark T} (h : Timed W c log) (hW : W ≤ now)
    (hnot : now - c.start < W) (hlimit : c'.limit = c.limit) (hstart : c'.start = c.start)
    (hpast : (splitStep (split log) e).1 = (split log).1)
    (hcur : (splitStep (split log) e).2 = (split log).2 ∨
      (splitStep (split log) e).2 = (split log).2 ++ [now])
    (hclock : ∀ a ∈ admissions log, a ≤ now) (hrefusal : Exhausted W c.limit log e)
    (hcounted : Counted c' (log ++ [e])) : Timed W c' (log ++ [e]) := by
  -- the window was opened by an admission: a counter that was never used is due
  have hne : (split log).2 ≠ [] := by
    intro hnil
    have hzero := (h.unused hnil).2
    rw [hzero, sub_zero] at hnot
    exact absurd hW (not_le.mpr hnot)
  have hnow : c.start ≤ now := by
    obtain ⟨a, ha⟩ := List.exists_mem_of_ne_nil _ hne
    have hle := hclock a (by rw [admissions_eq_split]; exact List.mem_append_right _ ha)
    exact (h.current a ha).trans hle
  have hmem : ∀ a ∈ (splitStep (split log) e).2, a ∈ (split log).2 ∨ a = now := by
    intro a ha
    rcases hcur with hcur | hcur <;> rw [hcur] at ha
    · exact Or.inl ha
    · simpa using ha
  refine ⟨hcounted, ?_, ?_, ?_, ?_, ?_, ?_, ?_, ?_, ?_⟩
  · rw [split_concat]
    intro hnil
    rcases hcur with hcur | hcur <;> rw [hcur] at hnil
    · exact absurd hnil hne
    · exact absurd hnil (by simp)
  · rw [split_concat, hstart]
    rcases hcur with hcur | hcur <;> rw [hcur]
    · exact h.opens
    · rw [List.head?_append_of_ne_nil _ hne]
      exact h.opens
  · rw [split_concat, hstart]
    intro a ha
    rcases hmem a ha with hold | hnew
    · exact h.current a hold
    · rw [hnew]
      exact hnow
  · rw [split_concat, hstart, hpast]
    exact h.past
  · rw [split_concat, hstart, hpast, hlimit]
    exact h.recent
  · rw [split_concat, hstart, hpast]
    exact h.spaced
  · rw [split_concat, hpast, hlimit]
    exact h.interval
  · rw [split_concat, hpast, hlimit]
    exact h.fresh
  · rw [hlimit, guarded_concat]
    exact ⟨h.refusals, hrefusal⟩

/-- **One request** at a time not before the earlier ones, and at least `W` after the epoch. -/
lemma Timed.step (h : Timed W c log) (hpos : 0 < c.limit) (hW : W ≤ now)
    (hclock : ∀ a ∈ admissions log, a ≤ now) :
    Timed W (c.step W now).1 (log ++ (c.step W now).2) := by
  have hcounted := h.toCounted.step hpos W now
  rcases Counter.step_cases W now hpos with
    ⟨hdue, hstep⟩ | ⟨hnot, -, hstep⟩ | ⟨hnot, hge, hstep⟩ <;> rw [hstep] at hcounted ⊢
  · have hsnoc : log ++ [Mark.opened now, .admitted now]
        = log ++ [.opened now] ++ [.admitted now] := by simp
    rw [hsnoc] at hcounted ⊢
    exact h.opened hpos hdue hclock hcounted
  · exact h.inWindow hW hnot rfl rfl rfl (Or.inr rfl) hclock
      (fun t ht => absurd ht (by simp)) hcounted
  · refine h.inWindow hW hnot rfl rfl rfl (Or.inl rfl) hclock ?_ hcounted
    intro t ht
    obtain rfl : now = t := by simpa using ht
    have hcount := h.count_eq
    have hle := h.count_le
    refine ⟨by omega, fun a ha => ?_⟩
    have hstart := h.current a ha
    linarith

end

end FixedWindow
end Lib
