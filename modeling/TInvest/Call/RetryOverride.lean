import TInvest.Call.UnaryTheorems

/-!
# The retry option of a call

`CallOptions::retry` is said to force-enable or to disable the automatic retry of one call.
`unary_sync` joins it to the flags of the policy with `&&`, so it can only take a retry away.

* `Overrides` — the call with the option does what the call without it does under the policy
  with both flags forced;
* `FlagsCover` — the flags of the policy already allow every retry of the forced policy;
* `retry_overrides_iff` — the first holds exactly when the option disables or the second holds;
* `retry_not_enabled` — and an option that enables may be without effect.
-/

namespace TInvest

/-- The policy with both flags set to `b`. -/
def RetryPolicy.force (rp : RetryPolicy) (b : Bool) : RetryPolicy :=
  { rp with onRateLimit := b, onUnavailable := b }

/-- The flag of the policy for the status of an error is on; a status without a flag counts as
one whose flag is on. -/
def RetryPolicy.Allows (rp : RetryPolicy) (err : Error) : Prop :=
  (err.code = .resourceExhausted → rp.onRateLimit = true) ∧
    (err.code = .unavailable → rp.onUnavailable = true)

namespace Detail

variable {Resp : Type}

/-- The option does what it is said to do: the same effects and the same result as without it,
under the forced policy. -/
def Overrides (config : Config) (opts : CallOptions) (b : Bool) (method : String)
    (call : ℕ → ClientContext → Answer Resp) : Prop :=
  unarySync config { opts with retry := some b } method call =
    unarySync { config with retry := config.retry.force b } { opts with retry := none } method call

/-- The policy's own flags are on for every answer after which the forced policy goes on. -/
def FlagsCover (config : Config) (opts : CallOptions)
    (call : ℕ → ClientContext → Answer Resp) : Prop :=
  ∀ i, 1 ≤ i →
    (∀ j, 1 ≤ j → j ≤ i → ¬ Stops (config.retry.force true) { opts with retry := none } j
      (call j (setupContext config opts))) →
    config.retry.Allows (call i (setupContext config opts)).error

/-! ## When the two calls end -/

/-- An option that disables stops at every answer, as the policy without flags does. -/
lemma stops_disabled (rp : RetryPolicy) (opts : CallOptions) (i : ℕ) (answer : Answer Resp) :
    Stops rp { opts with retry := some false } i answer ∧
      Stops (rp.force false) { opts with retry := none } i answer := by
  constructor
  · right
    left
    intro h
    exact h.2 rfl
  · right
    left
    intro h
    rcases h.1 with ⟨-, hflag⟩ | ⟨-, hflag⟩ <;> exact absurd hflag (by simp [RetryPolicy.force])

/-- An option that enables stops where the forced policy stops, and where a flag is off. -/
lemma stops_enabled_iff (rp : RetryPolicy) (opts : CallOptions) (i : ℕ) (answer : Answer Resp) :
    Stops rp { opts with retry := some true } i answer ↔
      Stops (rp.force true) { opts with retry := none } i answer ∨ ¬ rp.Allows answer.error := by
  have hretry : Retryable rp { opts with retry := some true } answer.error ↔
      Retryable (rp.force true) { opts with retry := none } answer.error ∧
        rp.Allows answer.error := by
    have hne : StatusCode.resourceExhausted ≠ .unavailable := by decide
    simp only [Retryable, RetryPolicy.force, RetryPolicy.Allows]
    by_cases hlimit : answer.error.code = .resourceExhausted
    · simp [hlimit, hne]
    · simp [hlimit]
      tauto
  simp only [Stops, hretry]
  rw [not_and_or]
  constructor
  · intro h
    rcases h with h | (h | h) | h | h
    · exact Or.inl (Or.inl h)
    · exact Or.inl (Or.inr (Or.inl h))
    · exact Or.inr h
    · exact Or.inl (Or.inr (Or.inr (Or.inl h)))
    · exact Or.inl (Or.inr (Or.inr (Or.inr h)))
  · intro h
    rcases h with (h | h | h | h) | h
    · exact Or.inl h
    · exact Or.inr (Or.inl (Or.inl h))
    · exact Or.inr (Or.inr (Or.inl h))
    · exact Or.inr (Or.inr (Or.inr h))
    · exact Or.inr (Or.inl (Or.inr h))

/-- The attempt at which a call ends, with what it has done by then. -/
def EndsAt (config : Config) (opts : CallOptions) (method : String)
    (call : ℕ → ClientContext → Answer Resp) (n : ℕ) : Prop :=
  1 ≤ n ∧ Stops config.retry opts n (call n (setupContext config opts)) ∧
    (∀ i, 1 ≤ i → i < n → ¬ Stops config.retry opts i (call i (setupContext config opts))) ∧
    unarySync config opts method call =
      ((List.range' 1 (n - 1)).flatMap (passEffects config opts method call)
          ++ [.acquire method, .call (setupContext config opts)],
        (call n (setupContext config opts)).result)

lemma exists_endsAt (config : Config) (opts : CallOptions) (method : String)
    (call : ℕ → ClientContext → Answer Resp) : ∃ n, EndsAt config opts method call n := by
  obtain ⟨n, hone, -, hstop, hbefore, hloop⟩ := unaryLoop_spec config opts method call 1
    (le_max_left 1 config.retry.maxAttempts)
  exact ⟨n, hone, hstop, hbefore, hloop⟩

lemma EndsAt.calls {config : Config} {opts : CallOptions} {method : String}
    {call : ℕ → ClientContext → Answer Resp} {n : ℕ} (h : EndsAt config opts method call n) :
    calls (unarySync config opts method call).1 = n := by
  obtain ⟨hone, -, -, hrun⟩ := h
  have hcalls := calls_passes config opts method call (List.range' 1 (n - 1))
  rw [List.length_range'] at hcalls
  rw [hrun, hcalls]
  omega

/-- Two calls that end at the same attempt do the same: the option and the flags decide about
nothing else. -/
lemma overrides_iff_endsAt {config : Config} {opts : CallOptions} {b : Bool} {method : String}
    {call : ℕ → ClientContext → Answer Resp} {n m : ℕ}
    (hn : EndsAt config { opts with retry := some b } method call n)
    (hm : EndsAt { config with retry := config.retry.force b } { opts with retry := none }
      method call m) : Overrides config opts b method call ↔ n = m := by
  constructor
  · intro h
    have hcalls := hn.calls
    rw [h] at hcalls
    rw [← hcalls, hm.calls]
  · intro h
    obtain ⟨-, -, -, hrun⟩ := hn
    obtain ⟨-, -, -, hrun'⟩ := hm
    rw [Overrides, hrun, hrun', h]
    rfl

/-- **The retry option.** It overrides the policy exactly when it disables the retry, or when the
flags of the policy are on for every answer after which the forced policy goes on. -/
theorem retry_overrides_iff (config : Config) (opts : CallOptions) (b : Bool) (method : String)
    (call : ℕ → ClientContext → Answer Resp) :
    Overrides config opts b method call ↔ b = false ∨ FlagsCover config opts call := by
  obtain ⟨n, hn⟩ := exists_endsAt config { opts with retry := some b } method call
  obtain ⟨m, hm⟩ := exists_endsAt { config with retry := config.retry.force b }
    { opts with retry := none } method call
  rw [overrides_iff_endsAt hn hm]
  obtain ⟨hn1, hnstop, hnbefore, -⟩ := hn
  obtain ⟨hm1, hmstop, hmbefore, -⟩ := hm
  cases b with
  | false =>
    -- both end after the first answer
    have hn0 : ¬ 1 < n := fun hlt => hnbefore 1 le_rfl hlt (stops_disabled ..).1
    have hm0 : ¬ 1 < m := fun hlt => hmbefore 1 le_rfl hlt (stops_disabled ..).2
    simp only [true_or, iff_true]
    omega
  | true =>
    simp only [Bool.true_eq_false, false_or]
    constructor
    · intro heq i hi hgo
      -- the forced policy has not ended by `i`, so neither has the call
      have hlt : i < n := by
        by_contra hge
        exact hgo m hm1 (by omega) hmstop
      have hnot := hnbefore i hi hlt
      rw [stops_enabled_iff, not_or, not_not] at hnot
      exact hnot.2
    · intro hcover
      have hle : n ≤ m := by
        by_contra hgt
        refine hnbefore m hm1 (by omega) ?_
        rw [stops_enabled_iff]
        exact Or.inl hmstop
      have hge : m ≤ n := by
        by_contra hgt
        rw [stops_enabled_iff] at hnstop
        rcases hnstop with hstop | hflag
        · exact hmbefore n hn1 (by omega) hstop
        · exact hflag (hcover n hn1 fun j hj hjn => hmbefore j hj (by omega))
      omega

/-- A server that is unavailable once. -/
def unavailableOnce (i : ℕ) (_ : ClientContext) : Answer Unit where
  status := if i = 1 then { errorCode := .unavailable } else {}
  trailing := []
  resp := ()

/-- With the flag for `UNAVAILABLE` off, an option that enables the retry does not retry; the
policy with the flag on calls twice. -/
theorem retry_not_enabled :
    (calls (unarySync { token := "t", retry := { onUnavailable := false } } { retry := some true }
        "m" unavailableOnce).1 = 1 ∧
      calls (unarySync { token := "t" } {} "m" unavailableOnce).1 = 2) ∧
      ¬ ∀ (config : Config) (opts : CallOptions) (b : Bool) (method : String)
        (call : ℕ → ClientContext → Answer Unit), Overrides config opts b method call := by
  have hone : calls (unarySync { token := "t", retry := { onUnavailable := false } }
      { retry := some true } "m" unavailableOnce).1 = 1 := by
    rw [unarySync, unaryLoop]
    rfl
  have htwo : calls (unarySync { token := "t" } {} "m" unavailableOnce).1 = 2 := by
    rw [unarySync, unaryLoop, unaryLoop]
    rfl
  refine ⟨⟨hone, htwo⟩, fun h => ?_⟩
  have hsame : unarySync { token := "t", retry := { onUnavailable := false } }
      { retry := some true } "m" unavailableOnce = unarySync { token := "t" } {} "m"
      unavailableOnce := h { token := "t", retry := { onUnavailable := false } } {} true "m"
    unavailableOnce
  rw [hsame, htwo] at hone
  exact absurd hone (by decide)

end Detail
end TInvest
