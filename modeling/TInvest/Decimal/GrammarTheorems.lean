import TInvest.Decimal.Grammar
import TInvest.Decimal.TextTheorems

/-!
# `from_string` and its grammar

* `parseFraction_tail`, `parseFraction_cases` — what the scanner does after the integer digits,
  on a text of the grammar and on any other;
* `fromCharsOn_chars`, `fromCharsOn_cases` — it accepts every number of the grammar and nothing
  else, whatever an overflow of the integer digits does;
* `nanos_eq` — the digits it keeps are the written number truncated to nano-units;
* `fromString_grammar`, `fromString_range_iff` — the two results.
-/

namespace TInvest
namespace Decimal

open Lib.Signed
open Lib.Rounding

/-! ## Runs of digits -/

/-- Every text starts with a longest run of digits. -/
lemma exists_digit_run (cs : List Char) :
    ∃ ds rest, cs = ds ++ rest ∧ (∀ c ∈ ds, c.isDigit) ∧ NoDigitFirst rest := by
  refine ⟨cs.takeWhile Char.isDigit, cs.dropWhile Char.isDigit,
    List.takeWhile_append_dropWhile.symm, fun c hc => List.mem_takeWhile_imp hc, ?_⟩
  intro c hc
  have h := List.head?_dropWhile_not Char.isDigit cs
  rw [Option.mem_def.mp hc] at h
  simpa using h

/-- And only one. -/
lemma takeWhile_digit_run {ds rest : List Char} (hds : ∀ c ∈ ds, c.isDigit)
    (hrest : NoDigitFirst rest) : (ds ++ rest).takeWhile Char.isDigit = ds := by
  have hnil : rest.takeWhile Char.isDigit = [] := by
    cases rest with
    | nil => rfl
    | cons c cs =>
      have hc : c.isDigit = false := hrest c rfl
      rw [List.takeWhile_cons, hc]
      rfl
  rw [List.takeWhile_append_of_pos hds, hnil, List.append_nil]

/-- `n` digits write a number below `10^n`. -/
lemma ofDigitChars_lt {ds : List Char} (hds : ∀ c ∈ ds, c.isDigit) :
    Nat.ofDigitChars 10 ds 0 < 10 ^ ds.length := by
  induction ds with
  | nil => simp
  | cons c ds ih =>
    have hle := (digitValue_eq (hds c (List.mem_cons_self ..))).2
    have hlt := ih (fun x hx => hds x (List.mem_cons_of_mem c hx))
    rw [Nat.ofDigitChars_cons, Nat.ofDigitChars_eq_ofDigitChars_zero, List.length_cons, pow_succ]
    nlinarith

lemma fracValue_lt {ds : List Char} (hds : ∀ c ∈ ds, c.isDigit) (k : ℕ) :
    fracValue k ds < 10 ^ k := by
  have hlt := ofDigitChars_lt (fun c hc => hds c (List.mem_of_mem_take (i := k) hc))
  have hlen : (ds.take k).length + (k - ds.length) = k := by
    rw [List.length_take]
    omega
  have hpos : 0 < 10 ^ (k - ds.length) := by positivity
  calc fracValue k ds
      < 10 ^ (ds.take k).length * 10 ^ (k - ds.length) := Nat.mul_lt_mul_of_pos_right hlt hpos
    _ = 10 ^ k := by rw [← pow_add, hlen]

/-- The kept fractional digits are the fraction truncated to `k` places. -/
lemma fracValue_eq_div {ds : List Char} (hds : ∀ c ∈ ds, c.isDigit) (k : ℕ) :
    fracValue k ds = Nat.ofDigitChars 10 ds 0 * 10 ^ k / 10 ^ ds.length := by
  rcases le_or_gt ds.length k with hle | hgt
  · -- no digit is dropped
    have hpow : (10 : ℕ) ^ k = 10 ^ (k - ds.length) * 10 ^ ds.length := by
      rw [← pow_add, Nat.sub_add_cancel hle]
    rw [fracValue, List.take_of_length_le hle, hpow, ← mul_assoc,
      Nat.mul_div_cancel _ (by positivity)]
  · -- the dropped digits are less than one unit of the last place
    have hpow : (10 : ℕ) ^ ds.length = 10 ^ (ds.length - k) * 10 ^ k := by
      rw [← pow_add, Nat.sub_add_cancel hgt.le]
    have hdrop := ofDigitChars_lt (fun c hc => hds c (List.mem_of_mem_drop (i := k) hc))
    rw [List.length_drop] at hdrop
    have hsplit : Nat.ofDigitChars 10 ds 0
        = 10 ^ (ds.length - k) * Nat.ofDigitChars 10 (ds.take k) 0
          + Nat.ofDigitChars 10 (ds.drop k) 0 := by
      conv_lhs => rw [← List.take_append_drop k ds]
      rw [Nat.ofDigitChars_append, Nat.ofDigitChars_eq_ofDigitChars_zero (l := ds.drop k),
        List.length_drop]
    rw [fracValue, hpow, Nat.mul_div_mul_right _ _ (by positivity), hsplit,
      Nat.mul_add_div (by positivity), Nat.div_eq_of_lt hdrop, add_zero,
      Nat.sub_eq_zero_of_le hgt.le, pow_zero, mul_one]

/-! ## After the integer digits -/

/-- On the fractional part of a number, the scanner keeps nine places. -/
lemma parseFraction_tail {point : Option Char} {fracs : List Char}
    (hpoint : ∀ c ∈ point, c = '.' ∨ c = ',') (hfracs : ∀ c ∈ fracs, c.isDigit)
    (hnone : point = none → fracs = []) (any : Bool) :
    parseFraction (point.toList ++ fracs) any
      = some (some (((fracValue 9 fracs : ℕ) : ℤ), any || !fracs.isEmpty)) := by
  cases point with
  | none =>
    rw [hnone rfl]
    simp [parseFraction, fracValue]
  | some c =>
    have hc : ¬ (c ≠ '.' ∧ c ≠ ',') := by
      have h := hpoint c rfl
      tauto
    have hnano := nanoLoop_digits fracs [] 9 0 any hfracs (by simp [NoDigitFirst]) (le_refl 9)
      (by norm_num)
    rw [List.append_nil, Nat.zero_add, Nat.cast_zero] at hnano
    have hscale : kNano.tdiv 10 = ((10 ^ 9 : ℕ) : ℤ).tdiv 10 := by decide
    show parseFraction (c :: fracs) any = _
    rw [parseFraction, if_neg hc, hscale, hnano]
    rfl

/-- Any other rest of the text is rejected. -/
lemma parseFraction_cases (rest : List Char) (any : Bool) :
    parseFraction rest any = some none ∨
      ∃ (point : Option Char) (fracs : List Char), (∀ c ∈ point, c = '.' ∨ c = ',') ∧
        (∀ c ∈ fracs, c.isDigit) ∧ (point = none → fracs = []) ∧
        rest = point.toList ++ fracs := by
  cases rest with
  | nil => exact Or.inr ⟨none, [], by simp, by simp, fun _ => rfl, rfl⟩
  | cons c cs =>
    by_cases hc : c ≠ '.' ∧ c ≠ ','
    · left
      rw [parseFraction, if_pos hc]
    · obtain ⟨fs, rest, hsplit, hfs, hrest⟩ := exists_digit_run cs
      have hnano := nanoLoop_digits fs rest 9 0 any hfs hrest (le_refl 9) (by norm_num)
      rw [Nat.cast_zero, ← hsplit] at hnano
      have hscale : kNano.tdiv 10 = ((10 ^ 9 : ℕ) : ℤ).tdiv 10 := by decide
      cases rest with
      | nil =>
        right
        have hpoint : c = '.' ∨ c = ',' := by tauto
        refine ⟨some c, fs, ?_, hfs, by simp, by simpa using hsplit⟩
        intro x hx
        obtain rfl : c = x := by simpa using hx
        exact hpoint
      | cons x xs =>
        left
        rw [parseFraction, if_neg hc, hscale, hnano]
        rfl

/-! ## The sign -/

/-- Fewer nano-units than a unit never overflow the constructor. -/
lemma make_some (units : Int64) {nano : Int32} (hlow : -kNano < nano.toInt)
    (hhigh : nano.toInt < kNano) :
    ∃ d, make units nano = some d ∧ d.Canonical ∧ d.value = units.toInt * kNano + nano.toInt := by
  have hu := units.le_toInt
  have hu' := units.toInt_lt
  have hrange : InRange (units.toInt * kNano + nano.toInt) := by
    simp only [InRange, kNano] at *
    omega
  obtain ⟨hcan, hval⟩ := fromTotal_spec hrange
  exact ⟨_, normalize_spec hcan hval, hcan, hval⟩

/-- The signed fraction is an `int32` of less than a unit. -/
lemma signed_frac (neg : Bool) {frac : ℕ} (h : frac < 10 ^ 9) :
    ∃ nano : Int32, checked32 (if neg then -(frac : ℤ) else frac) = some nano ∧
      nano.toInt = (if neg then -(frac : ℤ) else frac) ∧ -kNano < nano.toInt ∧
      nano.toInt < kNano := by
  have hfit : Fits 32 (if neg then -(frac : ℤ) else frac) := by
    simp only [Fits]
    split <;> omega
  refine ⟨_, checked32_of_fits hfit, toInt_ofInt32 hfit, ?_⟩
  rw [toInt_ofInt32 hfit]
  simp only [kNano]
  split <;> omega

lemma signedOn_some (ov : Overflow) (neg : Bool) (units : Int64) {frac : ℕ} (h : frac < 10 ^ 9) :
    ∃ d, signedOn ov neg units frac = some d := by
  obtain ⟨nano, hchecked, -, hlow, hhigh⟩ := signed_frac neg h
  obtain ⟨d, hmake, -⟩ := make_some (if neg then ov.resolve (-units.toInt) else units) hlow hhigh
  refine ⟨d, ?_⟩
  rw [signedOn, hchecked]
  exact hmake

/-- With an `int64` magnitude the sign is applied exactly. -/
lemma signed_spec (neg : Bool) {u frac : ℕ} (hu : u < 2 ^ 63) (h : frac < 10 ^ 9) :
    ∃ d, signed neg u frac = some d ∧ d.Canonical ∧
      d.value = if neg then -(u * kNano + frac) else u * kNano + frac := by
  obtain ⟨nano, hchecked, hnano, hlow, hhigh⟩ := signed_frac neg h
  have hfit : Fits 64 (if neg then -(u : ℤ) else u) := by
    simp only [Fits]
    split <;> omega
  obtain ⟨d, hmake, hcan, hval⟩ := make_some (Int64.ofInt (if neg then -(u : ℤ) else u)) hlow hhigh
  refine ⟨d, ?_, hcan, ?_⟩
  · rw [signed, checked64_of_fits hfit, hchecked]
    exact hmake
  · rw [hval, toInt_ofInt64 hfit, hnano]
    split <;> ring

/-! ## The text after the sign -/

/-- The integer loop reads the run of digits, whatever an overflow does to `units`. -/
lemma unitsLoopOn_digits (ov : Overflow) (ds rest : List Char) (units : Int64) (any : Bool)
    (hds : ∀ c ∈ ds, c.isDigit) (hrest : NoDigitFirst rest) :
    ∃ u, unitsLoopOn ov (ds ++ rest) units any = (u, any || !ds.isEmpty, rest) := by
  induction ds generalizing units any with
  | nil =>
    cases rest with
    | nil => exact ⟨units, by simp [unitsLoopOn]⟩
    | cons c cs =>
      have hc : c.isDigit = false := hrest c rfl
      exact ⟨units, by simp [unitsLoopOn, hc]⟩
  | cons c ds ih =>
    have hc : c.isDigit := hds c (List.mem_cons_self ..)
    have hds' : ∀ x ∈ ds, x.isDigit := fun x hx => hds x (List.mem_cons_of_mem c hx)
    obtain ⟨u, hu⟩ := ih (ov.resolve ((ov.resolve (units.toInt * 10)).toInt + digitValue c)) true
      hds'
    refine ⟨u, ?_⟩
    rw [List.cons_append, unitsLoopOn, if_pos hc, hu]
    simp

/-- The loop overflows on a run of digits whose number is not an `int64`. -/
lemma unitsLoop_overflow (ds rest : List Char) (a : ℕ) (any : Bool)
    (hds : ∀ c ∈ ds, c.isDigit) (ha : a < 2 ^ 63) (hbig : 2 ^ 63 ≤ Nat.ofDigitChars 10 ds a) :
    unitsLoop (ds ++ rest) a any = none := by
  induction ds generalizing a any with
  | nil =>
    rw [Nat.ofDigitChars_nil] at hbig
    omega
  | cons c ds ih =>
    have hc : c.isDigit := hds c (List.mem_cons_self ..)
    have hds' : ∀ x ∈ ds, x.isDigit := fun x hx => hds x (List.mem_cons_of_mem c hx)
    obtain ⟨hval, -⟩ := digitValue_eq hc
    rw [Nat.ofDigitChars_cons] at hbig
    rw [List.cons_append, unitsLoop, if_pos hc]
    by_cases htens : Fits 64 ((a : ℤ) * 10)
    · rw [checked_of_fits htens, Option.bind_eq_bind, Option.bind_some]
      by_cases hsum : Fits 64 ((a : ℤ) * 10 + digitValue c)
      · -- no overflow yet: the number read so far is still an `int64`
        have hnext : (a : ℤ) * 10 + digitValue c = ((10 * a + (c.toNat - '0'.toNat) : ℕ) : ℤ) := by
          rw [hval]
          push_cast
          ring
        rw [checked_of_fits hsum, Option.bind_some, hnext]
        rw [hnext] at hsum
        simp only [Fits] at hsum
        exact ih _ true hds' (by omega) hbig
      · rw [checked, if_neg hsum]
        rfl
    · rw [checked, if_neg htens]
      rfl

namespace Magnitude

variable (m : Magnitude)

lemma ints_isDigit : ∀ c ∈ m.ints, c.isDigit :=
  fun c hc => m.isDigit c (List.mem_append_left _ hc)

lemma fracs_isDigit : ∀ c ∈ m.fracs, c.isDigit :=
  fun c hc => m.isDigit c (List.mem_append_right _ hc)

lemma noDigitFirst_tail : NoDigitFirst (m.point.toList ++ m.fracs) := by
  intro c hc
  cases hpoint : m.point with
  | none =>
    rw [m.no_point hpoint, hpoint] at hc
    exact absurd hc (by simp)
  | some p =>
    rw [hpoint] at hc
    obtain rfl : p = c := by simpa using hc
    rcases m.isPoint p hpoint with h | h <;> rw [h] <;> rfl

/-- `any` is set by a digit of either loop. -/
lemma any_digit : (!m.ints.isEmpty || !m.fracs.isEmpty) = true := by
  have h := m.some_digit
  cases hi : m.ints with
  | cons c cs => rfl
  | nil =>
    rw [hi, List.nil_append] at h
    cases hf : m.fracs with
    | nil => exact absurd hf h
    | cons c cs => rfl

lemma takeWhile_text : m.text.takeWhile Char.isDigit = m.ints :=
  takeWhile_digit_run m.ints_isDigit m.noDigitFirst_tail

end Magnitude

/-- What follows the integer digits, given the last step. -/
def afterUnits (sign : ℤ → Checked Decimal) (any : Bool) (rest : List Char) :
    Checked (Option Decimal) :=
  (parseFraction rest any).bind fun
    | none => some none
    | some (nano, any) => if any then some <$> sign nano else some none

lemma parseUnsigned_eq (neg : Bool) (cs : List Char) :
    parseUnsigned neg cs
      = (unitsLoop cs 0 false).bind fun r => afterUnits (signed neg r.1) r.2.1 r.2.2 := rfl

lemma parseUnsignedOn_eq (ov : Overflow) (neg : Bool) (cs : List Char) :
    parseUnsignedOn ov neg cs = afterUnits (signedOn ov neg (unitsLoopOn ov cs 0 false).1)
      (unitsLoopOn ov cs 0 false).2.1 (unitsLoopOn ov cs 0 false).2.2 := rfl

/-- The last step is reached on a number of the grammar. -/
lemma afterUnits_text (sign : ℤ → Checked Decimal) (m : Magnitude) :
    afterUnits sign (!m.ints.isEmpty) (m.point.toList ++ m.fracs)
      = some <$> sign (fracValue 9 m.fracs : ℕ) := by
  rw [afterUnits, parseFraction_tail m.isPoint m.fracs_isDigit m.no_point, m.any_digit]
  rfl

/-- It is reached on nothing else. -/
lemma afterUnits_cases (sign : ℤ → Checked Decimal) {ds : List Char} (hds : ∀ c ∈ ds, c.isDigit)
    (rest : List Char) :
    afterUnits sign (!ds.isEmpty) rest = some none ∨ ∃ m : Magnitude, ds ++ rest = m.text := by
  rcases parseFraction_cases rest (!ds.isEmpty) with hnone | ⟨point, fracs, hp, hf, hn, htail⟩
  · left
    rw [afterUnits, hnone]
    rfl
  · by_cases hany : (!ds.isEmpty || !fracs.isEmpty) = true
    · right
      refine ⟨⟨ds, point, fracs, hp, ?_, ?_, hn⟩, by rw [htail]; rfl⟩
      · intro c hc
        rcases List.mem_append.mp hc with h | h
        · exact hds c h
        · exact hf c h
      · intro hnil
        obtain ⟨hi, hf'⟩ := List.append_eq_nil_iff.mp hnil
        rw [hi, hf'] at hany
        exact absurd hany (by simp)
    · -- separators alone are not a number
      left
      rw [afterUnits, htail, parseFraction_tail hp hf hn, Bool.eq_false_iff.mpr hany]
      rfl

/-- Every unsigned number of the grammar is accepted. -/
lemma parseUnsignedOn_text (ov : Overflow) (neg : Bool) (m : Magnitude) :
    ∃ d, parseUnsignedOn ov neg m.text = some (some d) := by
  obtain ⟨u, hloop⟩ := unitsLoopOn_digits ov m.ints _ 0 false m.ints_isDigit m.noDigitFirst_tail
  obtain ⟨d, hd⟩ := signedOn_some ov neg u (fracValue_lt m.fracs_isDigit 9)
  refine ⟨d, ?_⟩
  rw [Bool.false_or] at hloop
  rw [parseUnsignedOn_eq, Magnitude.text, hloop, afterUnits_text, hd]
  rfl

/-- Anything else is rejected. -/
lemma parseUnsignedOn_cases (ov : Overflow) (neg : Bool) (cs : List Char) :
    parseUnsignedOn ov neg cs = some none ∨ ∃ m : Magnitude, cs = m.text := by
  obtain ⟨ds, rest, hsplit, hds, hrest⟩ := exists_digit_run cs
  obtain ⟨u, hloop⟩ := unitsLoopOn_digits ov ds rest 0 false hds hrest
  rw [Bool.false_or] at hloop
  rw [hsplit, parseUnsignedOn_eq, hloop]
  exact afterUnits_cases _ hds rest

/-- A number whose integer part is an `int64` is read without an overflow. -/
lemma parseUnsigned_text (neg : Bool) {m : Magnitude} (h : m.integer < 2 ^ 63) :
    ∃ d, parseUnsigned neg m.text = some (some d) ∧ d.Canonical ∧
      d.value = if neg then -(m.integer * kNano + (fracValue 9 m.fracs : ℕ))
        else m.integer * kNano + (fracValue 9 m.fracs : ℕ) := by
  have hloop := unitsLoop_digits m.ints _ 0 false m.ints_isDigit m.noDigitFirst_tail h
  obtain ⟨d, hd, hcan, hval⟩ := signed_spec neg h (fracValue_lt m.fracs_isDigit 9)
  refine ⟨d, ?_, hcan, hval⟩
  rw [Nat.cast_zero, Bool.false_or] at hloop
  rw [parseUnsigned_eq, Magnitude.text, hloop, Option.bind_some, afterUnits_text]
  rw [Magnitude.integer] at hd
  rw [hd]
  rfl

/-- Without such a run of digits in front the text overflows, with it it does not. -/
lemma parseUnsigned_defined_iff (neg : Bool) (cs : List Char) :
    parseUnsigned neg cs ≠ none ↔ Nat.ofDigitChars 10 (cs.takeWhile Char.isDigit) 0 < 2 ^ 63 := by
  obtain ⟨ds, rest, hsplit, hds, hrest⟩ := exists_digit_run cs
  rw [hsplit, takeWhile_digit_run hds hrest]
  rcases lt_or_ge (Nat.ofDigitChars 10 ds 0) (2 ^ 63) with hlt | hge
  · refine iff_of_true ?_ hlt
    have hloop := unitsLoop_digits ds rest 0 false hds hrest hlt
    rw [Nat.cast_zero, Bool.false_or] at hloop
    rcases afterUnits_cases (signed neg (Nat.ofDigitChars 10 ds 0 : ℕ)) hds rest with
      hnone | ⟨m, hm⟩
    · rw [parseUnsigned_eq, hloop, Option.bind_some, hnone]
      exact Option.some_ne_none _
    · have hints : m.ints = ds := by
        rw [← m.takeWhile_text, ← hm, takeWhile_digit_run hds hrest]
      have hint : m.integer < 2 ^ 63 := by rw [Magnitude.integer, hints]; exact hlt
      obtain ⟨d, hd, -⟩ := parseUnsigned_text neg hint
      rw [hm, hd]
      exact Option.some_ne_none _
  · refine iff_of_false ?_ (by omega)
    have hloop := unitsLoop_overflow ds rest 0 false hds (by norm_num) hge
    rw [Nat.cast_zero] at hloop
    rw [parseUnsigned_eq, hloop, not_not]
    rfl

/-! ## The sign in front -/

/-- The first character of what is left is not a sign. -/
def NoSignFirst (tail : List Char) : Prop := ∀ c ∈ tail.head?, ¬ (c = '-' ∨ c = '+')

lemma Magnitude.noSignFirst_text (m : Magnitude) : NoSignFirst m.text := by
  intro c hc hsign
  have hdigit : c.isDigit = false := by
    rcases hsign with h | h <;> rw [h] <;> rfl
  rw [Magnitude.text] at hc
  cases hints : m.ints with
  | nil =>
    -- no digit in front: the text starts with the point
    rw [hints, List.nil_append] at hc
    cases hpoint : m.point with
    | none =>
      rw [m.no_point hpoint, hpoint] at hc
      exact absurd hc (by simp)
    | some p =>
      rw [hpoint] at hc
      obtain rfl : p = c := by simpa using hc
      rcases m.isPoint p hpoint with h | h <;> rw [h] at hsign <;> exact absurd hsign (by decide)
  | cons x xs =>
    rw [hints] at hc
    obtain rfl : x = c := by simpa using hc
    have hx := m.ints_isDigit x (by rw [hints]; exact List.mem_cons_self ..)
    rw [hx] at hdigit
    exact absurd hdigit (by decide)

/-- Every text has one optional sign in front. -/
lemma exists_sign_split (cs : List Char) :
    ∃ (sign : Option Char) (tail : List Char), cs = sign.toList ++ tail ∧
      (∀ c ∈ sign, c = '+' ∨ c = '-') ∧ (sign = none → NoSignFirst tail) := by
  cases cs with
  | nil => exact ⟨none, [], rfl, by simp, fun _ => by simp [NoSignFirst]⟩
  | cons c cs =>
    by_cases hc : c = '-' ∨ c = '+'
    · refine ⟨some c, cs, rfl, ?_, by simp⟩
      intro x hx
      obtain rfl : c = x := by simpa using hx
      exact hc.symm
    · refine ⟨none, c :: cs, rfl, by simp, fun _ => ?_⟩
      intro x hx
      obtain rfl : c = x := by simpa using hx
      exact hc

/-- The sign is skipped and remembered. -/
lemma fromChars_sign {sign : Option Char} {tail : List Char}
    (hsign : ∀ c ∈ sign, c = '+' ∨ c = '-') (hnone : sign = none → NoSignFirst tail) :
    fromChars (sign.toList ++ tail) = parseUnsigned (sign == some '-') tail ∧
      (∀ ov, fromCharsOn ov (sign.toList ++ tail) = parseUnsignedOn ov (sign == some '-') tail) ∧
      leadingInteger (sign.toList ++ tail)
        = Nat.ofDigitChars 10 (tail.takeWhile Char.isDigit) 0 := by
  cases sign with
  | some c =>
    have hc : c = '-' ∨ c = '+' := (hsign c rfl).symm
    have hneg : (some c == some '-') = (c == '-') := rfl
    show fromChars (c :: tail) = _ ∧ (∀ ov, fromCharsOn ov (c :: tail) = _)
      ∧ leadingInteger (c :: tail) = _
    rw [fromChars, leadingInteger, if_pos hc, if_pos hc, hneg]
    exact ⟨rfl, fun ov => by rw [fromCharsOn, if_pos hc], rfl⟩
  | none =>
    have hneg : ((none : Option Char) == some '-') = false := rfl
    show fromChars tail = _ ∧ (∀ ov, fromCharsOn ov tail = _) ∧ leadingInteger tail = _
    rw [hneg]
    cases tail with
    | nil => exact ⟨rfl, fun ov => rfl, rfl⟩
    | cons c cs =>
      have hc : ¬ (c = '-' ∨ c = '+') := hnone rfl c rfl
      rw [fromChars, leadingInteger, if_neg hc, if_neg hc]
      exact ⟨rfl, fun ov => by rw [fromCharsOn, if_neg hc], rfl⟩

/-- A number of the grammar starts with its own sign. -/
lemma fromChars_chars (n : Numeral) :
    fromChars n.chars = parseUnsigned n.neg n.text ∧
      (∀ ov, fromCharsOn ov n.chars = parseUnsignedOn ov n.neg n.text) ∧
      leadingInteger n.chars = n.integer := by
  have h := fromChars_sign n.isSign (fun _ => n.noSignFirst_text)
  rw [n.takeWhile_text] at h
  exact h

/-- **Acceptance.** Every text is either rejected or a number of the grammar. -/
lemma fromCharsOn_cases (ov : Overflow) (cs : List Char) :
    fromCharsOn ov cs = some none ∨ ∃ n : Numeral, cs = n.chars := by
  obtain ⟨sign, tail, hsplit, hsign, hnone⟩ := exists_sign_split cs
  obtain ⟨-, hon, -⟩ := fromChars_sign hsign hnone
  rw [hsplit, hon]
  rcases parseUnsignedOn_cases ov (sign == some '-') tail with h | ⟨m, hm⟩
  · exact Or.inl h
  · exact Or.inr ⟨⟨m, sign, hsign⟩, by rw [hm]; rfl⟩

/-- A number of the grammar is accepted. -/
lemma fromCharsOn_chars (ov : Overflow) (n : Numeral) :
    ∃ d, fromCharsOn ov n.chars = some (some d) := by
  rw [(fromChars_chars n).2.1]
  exact parseUnsignedOn_text ov n.neg n.toMagnitude

/-! ## Runs without an overflow -/

lemma checked_eq_some {w : ℕ} {x y : ℤ} (h : checked w x = some y) : Fits w x ∧ y = x := by
  rw [checked] at h
  split at h
  · next hfit => exact ⟨hfit, (Option.some.inj h).symm⟩
  · exact absurd h (by simp)

lemma unitsLoopOn_of_unitsLoop (ov : Overflow) (cs : List Char) (units : Int64) (any : Bool)
    {r : ℤ × Bool × List Char} (h : unitsLoop cs units.toInt any = some r) :
    (unitsLoopOn ov cs units any).1.toInt = r.1 ∧ (unitsLoopOn ov cs units any).2 = r.2 := by
  induction cs generalizing units any with
  | nil =>
    obtain rfl := Option.some.inj h
    exact ⟨rfl, rfl⟩
  | cons c cs ih =>
    rw [unitsLoop] at h
    rw [unitsLoopOn]
    split at h
    · next hc =>
      obtain ⟨tens, htens, h⟩ := Option.bind_eq_some_iff.mp h
      obtain ⟨sum, hsum, h⟩ := Option.bind_eq_some_iff.mp h
      obtain ⟨hfit, htens⟩ := checked_eq_some htens
      obtain ⟨hfit', hsum⟩ := checked_eq_some hsum
      -- both operations are exact, so the resolved ones agree
      have hval : (ov.resolve ((ov.resolve (units.toInt * 10)).toInt + digitValue c)).toInt
          = sum := by
        rw [ov.exact _ hfit, ← htens, ov.exact _ hfit', hsum]
      rw [if_pos hc]
      exact ih _ true (by rw [hval]; exact h)
    · next hc =>
      rw [if_neg hc]
      obtain rfl := Option.some.inj h
      exact ⟨rfl, rfl⟩

lemma signedOn_of_signed (ov : Overflow) (neg : Bool) (units : Int64) (nano : ℤ) {d : Decimal}
    (h : signed neg units.toInt nano = some d) : signedOn ov neg units nano = some d := by
  obtain ⟨u, hu, h⟩ := Option.bind_eq_some_iff.mp h
  have hunits : u = if neg then ov.resolve (-units.toInt) else units := by
    by_cases hfit : Fits 64 (if neg then -units.toInt else units.toInt)
    · rw [checked64_of_fits hfit] at hu
      rw [← Option.some.inj hu, ← Int64.toInt_inj, toInt_ofInt64 hfit]
      cases neg
      · rfl
      · exact (ov.exact _ hfit).symm
    · rw [checked64, if_neg hfit] at hu
      exact absurd hu (by simp)
  rw [hunits] at h
  exact h

/-- A run without an overflow does not depend on what an overflow does. -/
lemma fromCharsOn_of_fromChars (ov : Overflow) (cs : List Char) {r : Option Decimal}
    (h : fromChars cs = some r) : fromCharsOn ov cs = some r := by
  obtain ⟨sign, tail, hsplit, hsign, hnone⟩ := exists_sign_split cs
  obtain ⟨hfrom, hon, -⟩ := fromChars_sign hsign hnone
  rw [hsplit, hfrom, parseUnsigned_eq] at h
  obtain ⟨loop, hloop, h⟩ := Option.bind_eq_some_iff.mp h
  obtain ⟨hunits, hrest⟩ := unitsLoopOn_of_unitsLoop ov tail 0 false hloop
  rw [hsplit, hon, parseUnsignedOn_eq, hrest]
  rw [← hunits] at h
  obtain ⟨frac, hfrac, h⟩ := Option.bind_eq_some_iff.mp h
  rw [afterUnits, hfrac, Option.bind_some]
  cases frac with
  | none => exact h
  | some p =>
    obtain ⟨nano, any⟩ := p
    cases any with
    | false => exact h
    | true =>
      obtain ⟨d, hd, hr⟩ := Option.map_eq_some_iff.mp h
      show some <$> signedOn ov _ _ nano = some r
      rw [signedOn_of_signed ov _ _ nano hd, ← hr]
      rfl

/-! ## The value -/

/-- The integer digits and the nine kept places are the written number, truncated. -/
lemma Magnitude.towardZero_number (m : Magnitude) :
    towardZero (m.number * kNano)
      = ((m.integer * 10 ^ 9 + fracValue 9 m.fracs : ℕ) : ℤ) := by
  have hscale : m.number * kNano
      = ((Nat.ofDigitChars 10 (m.ints ++ m.fracs) 0 * 10 ^ 9 : ℕ) : ℚ)
        / ((10 ^ m.fracs.length : ℕ) : ℚ) := by
    rw [Magnitude.number, kNano]
    push_cast
    ring
  have hpos : 0 < 10 ^ m.fracs.length := by positivity
  rw [hscale, towardZero_natCast_div, Nat.ofDigitChars_append,
    Nat.ofDigitChars_eq_ofDigitChars_zero, add_mul, mul_assoc, Nat.mul_add_div hpos,
    ← fracValue_eq_div m.fracs_isDigit]
  rfl

lemma nanos_eq (n : Numeral) :
    n.nanos = if n.neg then -(n.integer * kNano + (fracValue 9 n.fracs : ℕ))
      else n.integer * kNano + (fracValue 9 n.fracs : ℕ) := by
  have h := n.toMagnitude.towardZero_number
  have hnano : kNano = 1000000000 := rfl
  push_cast at h
  rw [Numeral.nanos, Numeral.written]
  split
  · rw [neg_mul, towardZero_neg, h, hnano]
  · rw [h, hnano]

/-- A number with an `int64` integer part is parsed to its truncation. -/
lemma fromChars_in_range {n : Numeral} (h : n.integer < 2 ^ 63) :
    ∃ d, fromChars n.chars = some (some d) ∧ d.Canonical ∧ d.value = n.nanos := by
  rw [(fromChars_chars n).1, nanos_eq]
  exact parseUnsigned_text n.neg h

/-- **Acceptance and value.** Whatever an overflow of the integer digits does, `from_string`
returns, with a value if and only if the text is a number of the grammar; the model with
undefined overflow agrees wherever it is defined. A number whose integer part is at most
`2^63 - 1` is parsed without an overflow to the canonical pair of its truncation to nano-units. -/
theorem fromString_grammar (s : String) :
    (∀ ov : Overflow, ∃ r, fromStringOn ov s = some r ∧ (r.isSome ↔ Accepted s) ∧
      (fromString s = none ∨ fromString s = some r)) ∧
    ∀ n : Numeral, s.toList = n.chars → n.integer ≤ 2 ^ 63 - 1 →
      ∃ d, fromString s = some (some d) ∧ d.Canonical ∧ d.value = n.nanos := by
  constructor
  · intro ov
    have hagree : ∀ r, fromStringOn ov s = some r →
        fromString s = none ∨ fromString s = some r := by
      intro r hr
      cases hs : fromString s with
      | none => exact Or.inl rfl
      | some q =>
        have hq : fromStringOn ov s = some q := fromCharsOn_of_fromChars ov s.toList hs
        rw [hr] at hq
        exact Or.inr hq.symm
    by_cases hacc : Accepted s
    · obtain ⟨n, hn⟩ := hacc
      obtain ⟨d, hd⟩ := fromCharsOn_chars ov n
      have hon : fromStringOn ov s = some (some d) := by rw [fromStringOn, hn, hd]
      exact ⟨some d, hon, iff_of_true rfl ⟨n, hn⟩, hagree _ hon⟩
    · have hon : fromStringOn ov s = some none := by
        rcases fromCharsOn_cases ov s.toList with h | h
        · exact h
        · exact absurd h hacc
      exact ⟨none, hon, iff_of_false (by simp) hacc, hagree _ hon⟩
  · intro n hn hle
    rw [fromString, hn]
    exact fromChars_in_range (by omega)

/-- The number `-.0123456789`. -/
def longFraction : Numeral where
  ints := []
  point := some '.'
  fracs := ['0', '1', '2', '3', '4', '5', '6', '7', '8', '9']
  isPoint := by simp
  isDigit := by simp
  some_digit := by decide
  no_point := by simp
  sign := some '-'
  isSign := by simp

/-- No integer digit, and one fractional digit more than is kept. -/
theorem fromString_grammar_long_fraction :
    ∃ d, fromString "-.0123456789" = some (some d) ∧ d.Canonical ∧ d.value = longFraction.nanos :=
  (fromString_grammar "-.0123456789").2 longFraction (by decide) (by decide)

example : fromString "-.0123456789" = some (some ⟨0, -12345678⟩) := by decide

/-! ## Numbers out of range -/

/-- What a parser of `int64` numbers owes its caller on the text `s`: a number whose signed
integer part is not an `int64` is rejected, one with the integer part `-2^63` is parsed, and
nothing overflows. -/
def RangeSafe (s : String) : Prop :=
  (∀ n : Numeral, s.toList = n.chars → ¬ Fits 64 n.signedInteger → fromString s = some none) ∧
    (∀ n : Numeral, s.toList = n.chars → n.signedInteger = -2 ^ 63 →
      ∃ d, fromString s = some (some d) ∧ d.Canonical ∧ d.value = n.nanos) ∧
    fromString s ≠ none

/-- **The range of `from_string`.** It is safe exactly on the texts whose leading digits, after
the optional sign, write a number below `2^63`: the magnitude is accumulated before the sign is
applied and without a check. -/
theorem fromString_range_iff (s : String) : RangeSafe s ↔ leadingInteger s.toList < 2 ^ 63 := by
  obtain ⟨sign, tail, hsplit, hsign, hnone⟩ := exists_sign_split s.toList
  obtain ⟨hfrom, -, hlead⟩ := fromChars_sign hsign hnone
  have hdefined : fromString s ≠ none ↔ leadingInteger s.toList < 2 ^ 63 := by
    rw [fromString, hsplit, hfrom, hlead]
    exact parseUnsigned_defined_iff _ tail
  constructor
  · intro h
    exact hdefined.mp h.2.2
  · intro hlt
    -- below `2^63` the integer part is an `int64` and not `-2^63`
    have hbound : ∀ n : Numeral, s.toList = n.chars →
        -2 ^ 63 < n.signedInteger ∧ n.signedInteger < 2 ^ 63 := by
      intro n hn
      rw [hn, (fromChars_chars n).2.2] at hlt
      rw [Numeral.signedInteger]
      split <;> omega
    refine ⟨fun n hn hout => ?_, fun n hn hmin => ?_, hdefined.mpr hlt⟩
    · obtain ⟨hlow, hhigh⟩ := hbound n hn
      exact absurd ⟨hlow.le, hhigh⟩ hout
    · have hlow := (hbound n hn).1
      omega

/-- `2^63` overflows, and wrapping turns `2^64 + 1` into `1`. -/
theorem fromString_overflows :
    fromString "9223372036854775808" = none ∧ fromString "-9223372036854775808" = none ∧
      fromStringOn .wrap "18446744073709551617" = some (some ⟨1, 0⟩) ∧
      ¬ ∀ s, RangeSafe s := by
  have hnone : fromString "9223372036854775808" = none := by decide +kernel
  refine ⟨hnone, by decide +kernel, by decide +kernel, fun h => ?_⟩
  exact (h "9223372036854775808").2.2 hnone

end Decimal
end TInvest
