import TInvest.Call.Unary
import TInvest.Decimal.TextTheorems

/-!
# The retry loop

* `getIntMetadata_number` — a header that holds an `int` is read as that number;
* `Stops` — when an answer ends a call, said without the loop;
* `unaryLoop_spec` — from any attempt on, the loop runs to the first answer that stops it;
* `unarySync_spec` — the whole call: its number of attempts, its result and its effects.
-/

namespace TInvest

namespace Answer

variable {Resp : Type}

/-- The error of a failed answer. -/
def error (answer : Answer Resp) : Error :=
  Detail.makeError answer.overflow answer.status answer.trailing

/-- What an answer amounts to. -/
def result (answer : Answer Resp) : Result Resp :=
  if answer.status.isOk then .ok answer.resp else .error answer.error

end Answer

namespace Detail

open Lib.Signed

variable {Resp : Type}

/-! ## Numbers in the metadata -/

/-- `atoi` reads a printed number. -/
lemma leadingNumber_toDigits (n : ℕ) : leadingNumber (Nat.toDigits 10 n) = n := by
  have hdigits := Decimal.isDigit_toDigits n
  have hval : Nat.ofDigitChars 10 (Nat.toDigits 10 n) 0 = n := Nat.ofDigitChars_ten_toDigits
  have htake : (Nat.toDigits 10 n).takeWhile Char.isDigit = Nat.toDigits 10 n :=
    List.takeWhile_eq_self_iff.mpr hdigits
  obtain ⟨c, cs, hcons, hminus, hplus⟩ := Decimal.toDigits_cons n
  -- a digit is not a space, so nothing is skipped in front
  have hspace : isSpace c = false := by
    have hc : c.isDigit := hdigits c (by rw [hcons]; exact List.mem_cons_self ..)
    have hrange := Char.isDigit_iff_toNat.mp hc
    by_contra hne
    simp only [isSpace, Bool.not_eq_false, Bool.or_eq_true, beq_iff_eq] at hne
    rcases hne with ((((h | h) | h) | h) | h) | h <;> rw [h] at hc <;> exact absurd hc (by decide)
  have hdrop : (Nat.toDigits 10 n).dropWhile isSpace = Nat.toDigits 10 n := by
    rw [hcons, List.dropWhile_cons, hspace]
    rfl
  rw [leadingNumber, hdrop]
  split
  · next ds h =>
    rw [hcons] at h
    exact absurd (List.cons.inj h).1 hminus
  · next ds h =>
    rw [hcons] at h
    exact absurd (List.cons.inj h).1 hplus
  · rw [htake, hval]

/-- A header that holds an `int` is read as that number. -/
lemma getIntMetadata_number {overflow : String → Int32} {md : Metadata} {key : String} {n : ℕ}
    (hn : n < 2 ^ 31) (h : getMetadata md key = String.ofList (Nat.toDigits 10 n)) :
    getIntMetadata overflow md key = n := by
  have hfit : Fits 32 (n : ℤ) := by
    simp only [Fits]
    omega
  have hne : (String.ofList (Nat.toDigits 10 n)).isEmpty = false := by
    obtain ⟨c, cs, hcons, -, -⟩ := Decimal.toDigits_cons n
    rw [hcons]
    simp
  simp only [getIntMetadata]
  rw [h, hne, if_neg (by simp), atoi, String.toList_ofList, leadingNumber_toDigits, if_pos hfit,
    toInt_ofInt32 hfit]

/-! ## When a call ends -/

/-- The error is one the policy retries, and the call does not forbid it. -/
def Retryable (rp : RetryPolicy) (opts : CallOptions) (err : Error) : Prop :=
  (err.code = .resourceExhausted ∧ rp.onRateLimit = true ∨
    err.code = .unavailable ∧ rp.onUnavailable = true) ∧ opts.retry ≠ some false

instance (rp : RetryPolicy) (opts : CallOptions) (err : Error) :
    Decidable (Retryable rp opts err) :=
  inferInstanceAs (Decidable (_ ∧ _))

/-- The `i`-th answer ends the call: it is OK, it is not retryable, it is the last one the policy
allows, or the wait before the next one is too long. -/
def Stops (rp : RetryPolicy) (opts : CallOptions) (i : ℕ) (answer : Answer Resp) : Prop :=
  answer.status.isOk = true ∨ ¬ Retryable rp opts answer.error ∨
    (i : ℤ) = max 1 rp.maxAttempts ∨ rp.maxWait < retryDelay i answer.error

instance (rp : RetryPolicy) (opts : CallOptions) (i : ℕ) (answer : Answer Resp) :
    Decidable (Stops rp opts i answer) :=
  inferInstanceAs (Decidable (_ ∨ _))

lemma retryable_iff (rp : RetryPolicy) (opts : CallOptions) (err : Error) :
    retryable rp opts err = true ↔ Retryable rp opts err := by
  simp only [retryable, Retryable]
  cases hretry : opts.retry with
  | none => simp
  | some retry => cases retry <;> simp

lemma afterCall_eq (rp : RetryPolicy) (opts : CallOptions) (i : ℕ) (answer : Answer Resp) :
    afterCall rp opts i answer =
      if answer.status.isOk then .inl (.ok answer.resp)
      else if !retryable rp opts answer.error || max 1 rp.maxAttempts ≤ i then
        .inl (.error answer.error)
      else if rp.maxWait < retryDelay i answer.error then .inl (.error answer.error)
      else .inr (retryDelay i answer.error) := rfl

lemma afterCall_of_stops {rp : RetryPolicy} {opts : CallOptions} {i : ℕ} {answer : Answer Resp}
    (h : Stops rp opts i answer) : afterCall rp opts i answer = .inl answer.result := by
  rw [afterCall_eq, Answer.result]
  by_cases hok : answer.status.isOk = true
  · rw [if_pos hok, if_pos hok]
  · rw [if_neg hok, if_neg hok]
    split
    · rfl
    · next hgo =>
      simp only [Bool.or_eq_true, Bool.not_eq_true', decide_eq_true_eq, not_or, not_le,
        Bool.not_eq_false, retryable_iff] at hgo
      -- only the wait is left to stop it
      have hwait : rp.maxWait < retryDelay i answer.error := by
        rcases h with h | h | h | h
        · exact absurd h hok
        · exact absurd hgo.1 h
        · omega
        · exact h
      rw [if_pos hwait]

lemma afterCall_of_not_stops {rp : RetryPolicy} {opts : CallOptions} {i : ℕ}
    {answer : Answer Resp} (hi : (i : ℤ) ≤ max 1 rp.maxAttempts) (h : ¬ Stops rp opts i answer) :
    afterCall rp opts i answer = .inr (retryDelay i answer.error) := by
  simp only [Stops, not_or, not_not, not_lt] at h
  obtain ⟨hok, hretry, hlast, hwait⟩ := h
  have hgo : ¬ (!retryable rp opts answer.error
      || decide (max 1 rp.maxAttempts ≤ (i : ℤ))) = true := by
    simp only [(retryable_iff rp opts _).mpr hretry, Bool.not_true, Bool.false_or,
      decide_eq_true_eq, not_le]
    omega
  rw [afterCall_eq, if_neg hok, if_neg hgo, if_neg (not_lt.mpr hwait)]

/-! ## The loop -/

/-- The effects of `i`-th pass that goes on to the next. -/
def passEffects (config : Config) (opts : CallOptions) (method : String)
    (call : ℕ → ClientContext → Answer Resp) (i : ℕ) : List Effect :=
  [.acquire method, .call (setupContext config opts),
    .sleep (retryDelay i (call i (setupContext config opts)).error)]

/-- From attempt `a` on, the loop runs to the first answer that stops it. -/
lemma unaryLoop_spec (config : Config) (opts : CallOptions) (method : String)
    (call : ℕ → ClientContext → Answer Resp) (a : ℕ)
    (ha : (a : ℤ) ≤ max 1 config.retry.maxAttempts) :
    ∃ n : ℕ, a ≤ n ∧ (n : ℤ) ≤ max 1 config.retry.maxAttempts ∧
      Stops config.retry opts n (call n (setupContext config opts)) ∧
      (∀ i, a ≤ i → i < n → ¬ Stops config.retry opts i (call i (setupContext config opts))) ∧
      unaryLoop config opts method call a =
        ((List.range' a (n - a)).flatMap (passEffects config opts method call)
            ++ [.acquire method, .call (setupContext config opts)],
          (call n (setupContext config opts)).result) := by
  -- induction on the attempts that are left
  generalize hk : (max 1 config.retry.maxAttempts - a).toNat = k
  induction k generalizing a with
  | zero =>
    have hstop : Stops config.retry opts a (call a (setupContext config opts)) :=
      Or.inr (Or.inr (Or.inl (by omega)))
    refine ⟨a, le_rfl, ha, hstop, fun i hi hlt => by omega, ?_⟩
    rw [unaryLoop, afterCall_of_stops hstop, Nat.sub_self]
    rfl
  | succ k ih =>
    by_cases hstop : Stops config.retry opts a (call a (setupContext config opts))
    · refine ⟨a, le_rfl, ha, hstop, fun i hi hlt => by omega, ?_⟩
      rw [unaryLoop, afterCall_of_stops hstop, Nat.sub_self]
      rfl
    · obtain ⟨n, hle, hmax, hn, hbefore, hloop⟩ := ih (a + 1) (by push_cast; omega)
        (by push_cast; omega)
      refine ⟨n, by omega, hmax, hn, ?_, ?_⟩
      · intro i hi hlt
        rcases Nat.eq_or_lt_of_le hi with heq | hgt
        · rw [← heq]
          exact hstop
        · exact hbefore i hgt hlt
      · have hcount : n - a = (n - (a + 1)) + 1 := by omega
        rw [unaryLoop, afterCall_of_not_stops ha hstop, hcount, List.range'_succ,
          List.flatMap_cons]
        simp only [hloop]
        rfl

/-! ## The call -/

/-- The sleeps among the effects. -/
def sleeps (effects : List Effect) : List ℤ :=
  effects.filterMap fun
    | .sleep delay => some delay
    | _ => none

/-- The number of invocations of the stub. -/
def calls (effects : List Effect) : ℕ :=
  effects.countP fun
    | .call _ => true
    | _ => false

lemma sleeps_passes (config : Config) (opts : CallOptions) (method : String)
    (call : ℕ → ClientContext → Answer Resp) (is : List ℕ) :
    sleeps (is.flatMap (passEffects config opts method call)
        ++ [.acquire method, .call (setupContext config opts)])
      = is.map fun i => retryDelay i (call i (setupContext config opts)).error := by
  induction is with
  | nil => rfl
  | cons i is ih =>
    rw [sleeps] at ih ⊢
    simp only [List.flatMap_cons, List.map_cons, passEffects, List.cons_append,
      List.nil_append, List.filterMap_cons]
    rw [ih]

lemma calls_passes (config : Config) (opts : CallOptions) (method : String)
    (call : ℕ → ClientContext → Answer Resp) (is : List ℕ) :
    calls (is.flatMap (passEffects config opts method call)
        ++ [.acquire method, .call (setupContext config opts)]) = is.length + 1 := by
  induction is with
  | nil => rfl
  | cons i is ih =>
    rw [calls] at ih ⊢
    simp only [List.flatMap_cons, passEffects, List.cons_append, List.nil_append,
      List.countP_cons, List.length_cons]
    rw [ih]
    simp

/-- A wait for a known reset lasts at least the reset. -/
lemma reset_le_retryDelay {i : ℕ} {err : Error} (hcode : err.code = .resourceExhausted)
    (hreset : 0 ≤ err.ratelimit.resetSeconds) :
    err.ratelimit.resetSeconds * 1000 ≤ retryDelay i err := by
  rw [retryDelay, if_pos hcode, if_pos hreset]
  omega

/-- **The retry policy.** For any policy, options and answers, the call returns after `n` attempts,
at least one and at most `max_attempts` or one; `n` is the first attempt whose answer stops the
call, and the result is that answer. Before each attempt the limiter is waited for once, and after
each but the last there is one sleep: `n - 1` of them, none longer than `max_wait`, and none
after a rate-limit answer shorter than its reset, whether seen as the error's field or as the
header's text. -/
theorem unarySync_spec (config : Config) (opts : CallOptions) (method : String)
    (call : ℕ → ClientContext → Answer Resp) :
    ∃ n : ℕ, 1 ≤ n ∧ (n : ℤ) ≤ max 1 config.retry.maxAttempts ∧
      Stops config.retry opts n (call n (setupContext config opts)) ∧
      (∀ i, 1 ≤ i → i < n →
        ¬ Stops config.retry opts i (call i (setupContext config opts))) ∧
      (unarySync config opts method call).2 = (call n (setupContext config opts)).result ∧
      (unarySync config opts method call).1 =
        (List.range' 1 (n - 1)).flatMap (passEffects config opts method call)
          ++ [.acquire method, .call (setupContext config opts)] ∧
      calls (unarySync config opts method call).1 = n ∧
      (sleeps (unarySync config opts method call).1).length = n - 1 ∧
      (∀ delay ∈ sleeps (unarySync config opts method call).1, delay ≤ config.retry.maxWait) ∧
      ∀ i, 1 ≤ i → i < n →
        (call i (setupContext config opts)).error.code = .resourceExhausted →
        (0 ≤ (call i (setupContext config opts)).error.ratelimit.resetSeconds →
          (call i (setupContext config opts)).error.ratelimit.resetSeconds * 1000
            ≤ retryDelay i (call i (setupContext config opts)).error) ∧
        ∀ r : ℕ, r < 2 ^ 31 →
          getMetadata (call i (setupContext config opts)).trailing "x-ratelimit-reset"
            = String.ofList (Nat.toDigits 10 r) →
          (r : ℤ) * 1000 ≤ retryDelay i (call i (setupContext config opts)).error := by
  obtain ⟨n, hone, hmax, hstop, hbefore, hloop⟩ := unaryLoop_spec config opts method call 1
    (le_max_left 1 config.retry.maxAttempts)
  have hsleeps := sleeps_passes config opts method call (List.range' 1 (n - 1))
  have hcalls := calls_passes config opts method call (List.range' 1 (n - 1))
  rw [List.length_range'] at hcalls
  rw [unarySync, hloop]
  refine ⟨n, hone, hmax, hstop, hbefore, rfl, rfl, ?_, ?_, ?_, ?_⟩
  · rw [hcalls]
    omega
  · rw [hsleeps, List.length_map, List.length_range']
  · intro delay hdelay
    rw [hsleeps, List.mem_map] at hdelay
    obtain ⟨i, hi, hval⟩ := hdelay
    rw [List.mem_range'_1] at hi
    -- the pass went on, so its wait was not too long
    have hgo := hbefore i hi.1 (by omega)
    simp only [Stops, not_or, not_lt] at hgo
    rw [← hval]
    exact hgo.2.2.2
  · intro i _ _ hcode
    refine ⟨reset_le_retryDelay hcode, fun r hr hheader => ?_⟩
    have hreset : (call i (setupContext config opts)).error.ratelimit.resetSeconds = r :=
      getIntMetadata_number hr hheader
    rw [← hreset]
    exact reset_le_retryDelay hcode (by rw [hreset]; exact Int.natCast_nonneg r)

/-- A server that answers the first call with a rate limit of one second, then with success. -/
def limitedOnce (i : ℕ) (_ : ClientContext) : Answer Unit :=
  if i = 1 then
    { status := { errorCode := .resourceExhausted }
      trailing := [("x-ratelimit-reset", "1")]
      resp := () }
  else
    { status := {}, trailing := [], resp := () }

/-- The default policy waits once and calls twice. -/
theorem unarySync_limitedOnce :
    calls (unarySync { token := "t" } {} "m" limitedOnce).1 = 2 ∧
      (sleeps (unarySync { token := "t" } {} "m" limitedOnce).1).length = 1 ∧
      (unarySync { token := "t" } {} "m" limitedOnce).2 = .ok () := by
  obtain ⟨n, hone, -, hstop, hbefore, hresult, -, hcalls, hsleeps, -, -⟩ :=
    unarySync_spec { token := "t" } {} "m" limitedOnce
  -- the second answer is the first that stops
  have hn : n = 2 := by
    rcases lt_trichotomy n 2 with h | h | h
    · have h1 : n = 1 := by omega
      rw [h1] at hstop
      exact absurd hstop (by decide)
    · exact h
    · exact absurd (by decide) (hbefore 2 (by omega) h)
  rw [hn] at hcalls hsleeps hresult
  exact ⟨hcalls, hsleeps, hresult⟩

end Detail
end TInvest
