import TInvest.Lib.Separated
import TInvest.Decimal.Text
import TInvest.Decimal.Theorems

/-!
# Printing and parsing decimals

* `unitsLoop_digits`, `nanoLoop_digits` — what the two digit loops of `from_string` read,
  for any digits and any rest of the text;
* `fillBuf_value`, `take_trimLen` — what the two loops of `to_string` write;
* `decimal_text_roundtrip` — parsing a printed decimal returns it, the printed form has no
  trailing fractional zero, and no two canonical decimals print alike.
-/

namespace TInvest
namespace Decimal

open Lib.Signed
open Lib.Separated

/-! ## The digit loops of the parser -/

lemma digitValue_eq {c : Char} (hc : c.isDigit) :
    digitValue c = ((c.toNat - '0'.toNat : ℕ) : ℤ) ∧ c.toNat - '0'.toNat ≤ 9 := by
  have h := Char.isDigit_iff_toNat.mp hc
  have h0 : '0'.toNat = 48 := rfl
  have h9 : '9'.toNat = 57 := rfl
  simp only [digitValue]
  omega

/-- Reading further digits never makes the number smaller. -/
lemma le_ofDigitChars (ds : List Char) (a : ℕ) : a ≤ Nat.ofDigitChars 10 ds a := by
  rw [Nat.ofDigitChars_eq_ofDigitChars_zero]
  have h : 1 ≤ 10 ^ ds.length := Nat.one_le_pow _ _ (by norm_num)
  nlinarith

/-- The first character of what is left is not a digit. -/
def NoDigitFirst (rest : List Char) : Prop := ∀ c ∈ rest.head?, c.isDigit = false

/-- The loop over the integer digits reads a digit string as its number, as long as that
number is an `int64`. -/
lemma unitsLoop_digits (ds rest : List Char) (a : ℕ) (any : Bool)
    (hds : ∀ c ∈ ds, c.isDigit) (hrest : NoDigitFirst rest)
    (hfit : Nat.ofDigitChars 10 ds a < 2 ^ 63) :
    unitsLoop (ds ++ rest) a any
      = some (((Nat.ofDigitChars 10 ds a : ℕ) : ℤ), any || !ds.isEmpty, rest) := by
  induction ds generalizing a any with
  | nil =>
    cases rest with
    | nil => simp [unitsLoop]
    | cons c cs =>
      have hc : c.isDigit = false := hrest c rfl
      simp [unitsLoop, hc]
  | cons c ds ih =>
    have hc : c.isDigit := hds c (List.mem_cons_self ..)
    obtain ⟨hval, hle⟩ := digitValue_eq hc
    rw [Nat.ofDigitChars_cons] at hfit ⊢
    -- the number read so far is at most the whole one, which fits
    have hstep := le_ofDigitChars ds (10 * a + (c.toNat - '0'.toNat))
    have htens : Fits 64 ((a : ℤ) * 10) := by simp only [Fits]; omega
    have hsum : Fits 64 ((a : ℤ) * 10 + digitValue c) := by
      rw [hval]
      simp only [Fits]
      omega
    have hnext : (a : ℤ) * 10 + digitValue c = ((10 * a + (c.toNat - '0'.toNat) : ℕ) : ℤ) := by
      rw [hval]
      push_cast
      ring
    rw [List.cons_append, unitsLoop, if_pos hc, checked_of_fits htens, Option.bind_eq_bind,
      Option.bind_some, checked_of_fits hsum, Option.bind_some, hnext,
      ih _ true (fun x hx => hds x (List.mem_cons_of_mem c hx)) hfit]
    simp

/-- The nano-units `k` fractional digit places hold after the digits `ds`; digits beyond
the last place do not count. -/
def fracValue (k : ℕ) (ds : List Char) : ℕ :=
  Nat.ofDigitChars 10 (ds.take k) 0 * 10 ^ (k - ds.length)

lemma fracValue_cons (k : ℕ) (c : Char) (ds : List Char) :
    fracValue (k + 1) (c :: ds) = (c.toNat - '0'.toNat) * 10 ^ k + fracValue k ds := by
  have hlen : (ds.take k).length + (k - ds.length) = k := by
    rw [List.length_take]
    omega
  rw [fracValue, List.take_succ_cons, Nat.ofDigitChars_cons,
    Nat.ofDigitChars_eq_ofDigitChars_zero, add_mul, fracValue, List.length_cons,
    Nat.add_sub_add_right, mul_zero, zero_add]
  congr 1
  calc 10 ^ (ds.take k).length * (c.toNat - '0'.toNat) * 10 ^ (k - ds.length)
      = (c.toNat - '0'.toNat) * 10 ^ ((ds.take k).length + (k - ds.length)) := by
        rw [pow_add]; ring
    _ = (c.toNat - '0'.toNat) * 10 ^ k := by rw [hlen]

/-- One fractional digit: its place value is `10^(k-1)`, and `0` once the places are used
up. -/
lemma place_step {k nano : ℕ} {c : Char} (ds : List Char) (hle : c.toNat - '0'.toNat ≤ 9)
    (hroom : nano + 10 ^ k ≤ 10 ^ 9) :
    nano + (c.toNat - '0'.toNat) * (10 ^ k / 10) + 10 ^ (k - 1) ≤ 10 ^ 9 ∧
      10 ^ k / 10 / 10 = 10 ^ (k - 1) / 10 ∧
      fracValue k (c :: ds)
        = (c.toNat - '0'.toNat) * (10 ^ k / 10) + fracValue (k - 1) ds := by
  cases k with
  -- from the tenth digit on `scale` is zero
  | zero => exact ⟨by simpa using hroom, by norm_num, by simp [fracValue]⟩
  | succ j =>
    have hdiv : 10 ^ (j + 1) / 10 = 10 ^ j := by
      rw [pow_succ]
      exact Nat.mul_div_cancel _ (by norm_num)
    rw [hdiv, Nat.add_sub_cancel]
    refine ⟨?_, rfl, fracValue_cons j c ds⟩
    rw [pow_succ] at hroom
    nlinarith [Nat.one_le_pow j 10 (by norm_num)]

/-- The loop over the fractional digits, `k ≤ 9` places before the end of `nano`. -/
lemma nanoLoop_digits (ds rest : List Char) (k nano : ℕ) (any : Bool)
    (hds : ∀ c ∈ ds, c.isDigit) (hrest : NoDigitFirst rest)
    (hk : k ≤ 9) (hroom : nano + 10 ^ k ≤ 10 ^ 9) :
    nanoLoop (ds ++ rest) nano (((10 ^ k : ℕ) : ℤ).tdiv 10) any
      = some (((nano + fracValue k ds : ℕ) : ℤ), any || !ds.isEmpty, rest) := by
  induction ds generalizing k nano any with
  | nil =>
    cases rest with
    | nil => simp [nanoLoop, fracValue]
    | cons c cs =>
      have hc : c.isDigit = false := hrest c rfl
      simp [nanoLoop, fracValue, hc]
  | cons c ds ih =>
    have hc : c.isDigit := hds c (List.mem_cons_self ..)
    have hds' : ∀ x ∈ ds, x.isDigit := fun x hx => hds x (List.mem_cons_of_mem c hx)
    obtain ⟨hval, hle⟩ := digitValue_eq hc
    obtain ⟨hroom', hscale, hfrac⟩ := place_step (c := c) ds hle hroom
    -- `scale` before and after this digit
    have hscaleZ : ((10 ^ k : ℕ) : ℤ).tdiv 10 = ((10 ^ k / 10 : ℕ) : ℤ) := by
      rw [Int.tdiv_eq_ediv_of_nonneg (by positivity)]
      push_cast
      rfl
    have hnextZ : (((10 ^ k / 10 : ℕ) : ℤ)).tdiv 10 = ((10 ^ (k - 1) : ℕ) : ℤ).tdiv 10 := by
      rw [Int.tdiv_eq_ediv_of_nonneg (by positivity), Int.tdiv_eq_ediv_of_nonneg (by positivity)]
      exact_mod_cast hscale
    have hterm : digitValue c * ((10 ^ k / 10 : ℕ) : ℤ)
        = (((c.toNat - '0'.toNat) * (10 ^ k / 10) : ℕ) : ℤ) := by
      rw [hval]
      push_cast
      ring
    -- the product, its narrowing and the sum stay below `10^9`
    have hpos : 1 ≤ 10 ^ (k - 1) := Nat.one_le_pow _ _ (by norm_num)
    have hfit : Fits 64 (digitValue c * ((10 ^ k / 10 : ℕ) : ℤ)) := by
      rw [hterm]
      simp only [Fits]
      omega
    have hfit' : Fits 32 (digitValue c * ((10 ^ k / 10 : ℕ) : ℤ)) := by
      rw [hterm]
      simp only [Fits]
      omega
    have hsum : Fits 32 ((nano : ℤ) + digitValue c * ((10 ^ k / 10 : ℕ) : ℤ)) := by
      rw [hterm]
      simp only [Fits]
      omega
    have hnano : (nano : ℤ) + digitValue c * ((10 ^ k / 10 : ℕ) : ℤ)
        = ((nano + (c.toNat - '0'.toNat) * (10 ^ k / 10) : ℕ) : ℤ) := by
      rw [hterm]
      push_cast
      ring
    rw [List.cons_append, nanoLoop, if_pos hc, hscaleZ, checked_of_fits hfit,
      Option.bind_eq_bind, Option.bind_some, toInt_ofInt32 hfit', checked_of_fits hsum,
      Option.bind_some, hnano, hnextZ, ih (k - 1) _ true hds' (by omega) hroom', hfrac]
    simp [add_assoc]

/-! ## The digit loops of the printer -/

lemma fillBuf_append (n frac : ℕ) (buf : List Char) :
    fillBuf n frac buf = fillBuf n frac [] ++ buf := by
  induction n generalizing frac buf with
  | zero => rfl
  | succ n ih =>
    rw [fillBuf, fillBuf, ih, ih _ [_], List.append_assoc]
    rfl

lemma fillBuf_succ (n frac : ℕ) :
    fillBuf (n + 1) frac [] = fillBuf n (frac / 10) [] ++ [Nat.digitChar (frac % 10)] := by
  rw [fillBuf, fillBuf_append]

lemma fillBuf_length (n frac : ℕ) : (fillBuf n frac []).length = n := by
  induction n generalizing frac with
  | zero => rfl
  | succ n ih => rw [fillBuf_succ, List.length_append, ih, List.length_singleton]

lemma fillBuf_isDigit (n frac : ℕ) : ∀ c ∈ fillBuf n frac [], c.isDigit := by
  induction n generalizing frac with
  | zero => simp [fillBuf]
  | succ n ih =>
    intro c hc
    rw [fillBuf_succ, List.mem_append, List.mem_singleton] at hc
    rcases hc with hc | rfl
    · exact ih _ c hc
    · simp [Nat.isDigit_digitChar]; omega

/-- The buffer holds the last `n` digits of the fraction. -/
lemma fillBuf_value (n frac : ℕ) :
    Nat.ofDigitChars 10 (fillBuf n frac []) 0 = frac % 10 ^ n := by
  induction n generalizing frac with
  | zero => simp [fillBuf, Nat.mod_one]
  | succ n ih =>
    rw [fillBuf_succ, Nat.ofDigitChars_append, ih,
      Nat.ofDigitChars_cons_digitChar_of_lt_ten (Nat.mod_lt _ (by norm_num)),
      Nat.ofDigitChars_nil, pow_succ, mul_comm (10 ^ n) 10, Nat.mod_mul]
    ring

lemma trimLen_le (buf : List Char) (len : ℕ) : trimLen buf len ≤ len := by
  induction len with
  | zero => rfl
  | succ len ih =>
    rw [trimLen]
    split <;> omega

/-- Trimming removes zeros only. -/
lemma take_trimLen (buf : List Char) (len : ℕ) (hlen : len ≤ buf.length) :
    buf.take len
      = buf.take (trimLen buf len) ++ List.replicate (len - trimLen buf len) '0' := by
  induction len with
  | zero => simp [trimLen]
  | succ len ih =>
    rw [trimLen]
    split
    · next h =>
      have hle := trimLen_le buf len
      rw [List.take_add_one, h, ih (by omega), List.append_assoc,
        show len + 1 - trimLen buf len = len - trimLen buf len + 1 by omega,
        List.replicate_succ']
      rfl
    · simp

/-- Trimming removes every trailing zero. -/
lemma getLast?_take_trimLen (buf : List Char) (len : ℕ) (hlen : len ≤ buf.length) :
    (buf.take (trimLen buf len)).getLast? ≠ some '0' := by
  induction len with
  | zero => simp [trimLen]
  | succ len ih =>
    rw [trimLen]
    split
    · exact ih (by omega)
    · next h =>
      rw [List.getElem?_eq_getElem (by omega)] at h
      rw [List.getLast?_take, if_neg (Nat.succ_ne_zero len), Nat.add_sub_cancel,
        List.getElem?_eq_getElem (by omega), Option.some_or]
      exact h

/-- The trimmed buffer still holds the fraction, read with nine places. -/
lemma fracValue_trimmed {frac : ℕ} (hfrac : frac < 10 ^ 9) :
    fracValue 9 ((fillBuf 9 frac []).take (trimLen (fillBuf 9 frac []) 9)) = frac := by
  have hlen := fillBuf_length 9 frac
  have hle := trimLen_le (fillBuf 9 frac []) 9
  have hsplit := take_trimLen (fillBuf 9 frac []) 9 (by rw [hlen])
  have hall : (fillBuf 9 frac []).take 9 = fillBuf 9 frac [] :=
    List.take_of_length_le (by rw [hlen])
  -- the zeros that were cut off are the factor the missing places give back
  have hval := fillBuf_value 9 frac
  rw [← hall, hsplit, Nat.ofDigitChars_append, Nat.ofDigitChars_replicate_zero,
    Nat.mod_eq_of_lt hfrac] at hval
  rw [fracValue, List.take_take, List.length_take, hlen, Nat.min_eq_right hle,
    Nat.min_eq_left hle, mul_comm]
  exact hval

/-- What the fractional part of the text looks like: empty for a whole number, else a point
and digits that hold the fraction and do not end in a zero. -/
lemma fracText_spec {frac : ℕ} (hfrac : frac < 10 ^ 9) :
    (frac = 0 ∧ fracText frac = []) ∨
      ∃ ds, fracText frac = '.' :: ds ∧ (∀ c ∈ ds, c.isDigit) ∧ fracValue 9 ds = frac ∧
        ds.getLast? ≠ some '0' ∧ ds ≠ [] := by
  by_cases h0 : frac = 0
  · exact Or.inl ⟨h0, if_pos h0⟩
  · refine Or.inr ⟨(fillBuf 9 frac []).take (trimLen (fillBuf 9 frac []) 9), if_neg h0,
      fun c hc => fillBuf_isDigit 9 frac c (List.mem_of_mem_take hc),
      fracValue_trimmed hfrac, getLast?_take_trimLen _ _ (by rw [fillBuf_length]), ?_⟩
    -- an empty fraction would be zero
    intro hnil
    have h := fracValue_trimmed hfrac
    rw [hnil] at h
    exact h0 (by rw [← h]; rfl)

lemma noDigitFirst_fracText (frac : ℕ) : NoDigitFirst (fracText frac) := by
  intro c hc
  rw [fracText] at hc
  split at hc
  · exact absurd hc (by simp)
  · obtain rfl : '.' = c := by simpa using hc
    rfl

/-! ## The fields as the printer sees them -/

/-- `magnitude` is the absolute value, `-2^63` included. -/
lemma magnitude_eq (units : Int64) : magnitude units = some units.toInt.natAbs := by
  have hu := units.le_toInt
  have hu' := units.toInt_lt
  rw [magnitude]
  split
  · -- `-(units_ + 1)` fits even for `-2^63`
    next h =>
    have hnext : Fits 64 (units.toInt + 1) := by simp only [Fits]; omega
    have hopp : Fits 64 (-(units.toInt + 1)) := by simp only [Fits]; omega
    rw [checked_of_fits hnext, Option.bind_eq_bind, Option.bind_some, checked_of_fits hopp,
      Option.bind_some]
    have habs : ((-(units.toInt + 1)).toNat + 1) % 2 ^ 64 = units.toInt.natAbs := by omega
    rw [habs]
    rfl
  · next h =>
    have habs : units.toInt.toNat = units.toInt.natAbs := by omega
    rw [habs]
    rfl

lemma fraction_eq {d : Decimal} (hd : d.Canonical) :
    fraction d.nano = some d.nano.toInt.natAbs ∧ d.nano.toInt.natAbs < 10 ^ 9 := by
  simp only [Canonical, kNano] at hd
  refine ⟨?_, by omega⟩
  rw [fraction]
  split
  · next h =>
    have hfit : Fits 32 (-d.nano.toInt) := by simp only [Fits]; omega
    have habs : (-d.nano.toInt).toNat = d.nano.toInt.natAbs := by omega
    rw [checked_of_fits hfit, Option.bind_eq_bind, Option.bind_some, habs]
    rfl
  · next h =>
    have habs : d.nano.toInt.toNat = d.nano.toInt.natAbs := by omega
    rw [habs]
    rfl

/-- The sign character. -/
def signChars (d : Decimal) : List Char :=
  if d.units.toInt < 0 ∨ d.nano.toInt < 0 then ['-'] else []

/-- Printing a canonical decimal never overflows. -/
lemma toChars_eq {d : Decimal} (hd : d.Canonical) :
    d.toChars = some (signChars d ++ (Nat.toDigits 10 d.units.toInt.natAbs
      ++ fracText d.nano.toInt.natAbs)) := by
  rw [toChars, magnitude_eq, (fraction_eq hd).1]
  rfl

lemma isDigit_toDigits (n : ℕ) : ∀ c ∈ Nat.toDigits 10 n, c.isDigit :=
  fun _ hc => Nat.isDigit_of_mem_toDigits (by norm_num) (by norm_num) hc

/-! ## The round trip -/

/-- A canonical pair is rebuilt from its sign and the magnitudes of its fields; only the
magnitude of `-2^63` is not an `int64`. -/
lemma signed_magnitudes {d : Decimal} (hd : d.Canonical) (hmin : -2 ^ 63 < d.units.toInt) :
    signed (decide (d.units.toInt < 0 ∨ d.nano.toInt < 0)) d.units.toInt.natAbs
      d.nano.toInt.natAbs = some d := by
  have hmake : make d.units d.nano = some d := normalize_spec hd rfl
  -- one sign serves both fields, because they do not oppose
  have hu : (if decide (d.units.toInt < 0 ∨ d.nano.toInt < 0) then
      -(d.units.toInt.natAbs : ℤ) else d.units.toInt.natAbs) = d.units.toInt := by
    simp only [Canonical, kNano, decide_eq_true_eq] at hd ⊢
    split <;> omega
  have hn : (if decide (d.units.toInt < 0 ∨ d.nano.toInt < 0) then
      -(d.nano.toInt.natAbs : ℤ) else d.nano.toInt.natAbs) = d.nano.toInt := by
    simp only [Canonical, kNano, decide_eq_true_eq] at hd ⊢
    split <;> omega
  rw [signed, hu, hn, checked64_of_fits (fits64_toInt _), checked32_of_fits (fits32_toInt _),
    Int64.ofInt_toInt, Int32.ofInt_toInt]
  exact hmake

/-- Parsing the printed digits of `u` and `frac`. -/
lemma parseUnsigned_printed (neg : Bool) {u frac : ℕ} (hu : u < 2 ^ 63) (hfrac : frac < 10 ^ 9) :
    parseUnsigned neg (Nat.toDigits 10 u ++ fracText frac) = some <$> signed neg u frac := by
  have hval : Nat.ofDigitChars 10 (Nat.toDigits 10 u) 0 = u := Nat.ofDigitChars_ten_toDigits
  have hunits := unitsLoop_digits (Nat.toDigits 10 u) (fracText frac) 0 false
    (isDigit_toDigits u) (noDigitFirst_fracText frac) (by rw [hval]; exact hu)
  have hany : (false || !(Nat.toDigits 10 u).isEmpty) = true := by simp
  -- at least one digit is printed
  rw [hval, hany, Nat.cast_zero] at hunits
  rw [parseUnsigned, hunits, Option.bind_eq_bind, Option.bind_some]
  rcases fracText_spec hfrac with ⟨rfl, htext⟩ | ⟨ds, htext, hdigits, hfracval, -, -⟩
  · rw [htext]
    rfl
  · have hnano := nanoLoop_digits ds [] 9 0 true hdigits (by simp [NoDigitFirst])
      (le_refl 9) (by norm_num)
    rw [List.append_nil, hfracval, Nat.zero_add, Nat.cast_zero] at hnano
    have hscale : kNano.tdiv 10 = ((10 ^ 9 : ℕ) : ℤ).tdiv 10 := by decide
    have hparse : parseFraction ('.' :: ds) true = some (some ((frac : ℤ), true)) := by
      rw [parseFraction, if_neg (by simp), hscale, hnano]
      rfl
    rw [htext]
    show (parseFraction ('.' :: ds) true).bind _ = _
    rw [hparse]
    rfl

/-- The first digit is neither a sign nor a point. -/
lemma toDigits_cons (u : ℕ) :
    ∃ c cs, Nat.toDigits 10 u = c :: cs ∧ c ≠ '-' ∧ c ≠ '+' := by
  cases h : Nat.toDigits 10 u with
  | nil => exact absurd h Nat.toDigits_ne_nil
  | cons c cs =>
    have hc : c.isDigit := isDigit_toDigits u c (by rw [h]; exact List.mem_cons_self ..)
    refine ⟨c, cs, rfl, ?_, ?_⟩
    · intro hminus
      rw [hminus] at hc
      exact absurd hc (by decide)
    · intro hplus
      rw [hplus] at hc
      exact absurd hc (by decide)

/-- Parsing the text of a canonical decimal returns it. -/
lemma fromChars_printed {d : Decimal} (hd : d.Canonical) (hmin : -2 ^ 63 < d.units.toInt) :
    fromChars (signChars d ++ (Nat.toDigits 10 d.units.toInt.natAbs
      ++ fracText d.nano.toInt.natAbs)) = some (some d) := by
  have hu : d.units.toInt.natAbs < 2 ^ 63 := by
    have := d.units.toInt_lt
    omega
  have hsigned := signed_magnitudes hd hmin
  by_cases hneg : d.units.toInt < 0 ∨ d.nano.toInt < 0
  · -- the sign is read off the first character
    rw [signChars, if_pos hneg, List.singleton_append, fromChars, if_pos (Or.inl rfl),
      parseUnsigned_printed _ hu (fraction_eq hd).2]
    rw [decide_eq_true hneg] at hsigned
    rw [beq_self_eq_true, hsigned]
    rfl
  · -- the first character is a digit, so no sign is skipped
    obtain ⟨c, cs, hcons, hminus, hplus⟩ := toDigits_cons d.units.toInt.natAbs
    rw [signChars, if_neg hneg, List.nil_append]
    have hfrom : fromChars (Nat.toDigits 10 d.units.toInt.natAbs
        ++ fracText d.nano.toInt.natAbs) = parseUnsigned false
          (Nat.toDigits 10 d.units.toInt.natAbs ++ fracText d.nano.toInt.natAbs) := by
      rw [hcons, List.cons_append, fromChars, if_neg (not_or.mpr ⟨hminus, hplus⟩)]
    rw [hfrom, parseUnsigned_printed _ hu (fraction_eq hd).2]
    rw [decide_eq_false hneg] at hsigned
    rw [hsigned]
    rfl

/-! ## Reading the printed form back -/

lemma point_notMem_of_digits {ds : List Char} (h : ∀ c ∈ ds, c.isDigit) : '.' ∉ ds := by
  intro hmem
  exact absurd (h '.' hmem) (by decide)

lemma point_notMem_signChars (d : Decimal) : '.' ∉ signChars d := by
  rw [signChars]
  split <;> simp

/-- After a point in the printed text there is no trailing zero. -/
lemma printed_no_trailing_zero {d : Decimal} (hd : d.Canonical) {before after : List Char}
    (h : signChars d ++ (Nat.toDigits 10 d.units.toInt.natAbs
      ++ fracText d.nano.toInt.natAbs) = before ++ '.' :: after) :
    after.getLast? ≠ some '0' := by
  -- the only point in the text is the one of the fraction
  have hint : '.' ∉ signChars d ++ Nat.toDigits 10 d.units.toInt.natAbs := by
    rw [List.mem_append, not_or]
    exact ⟨point_notMem_signChars d, point_notMem_of_digits (isDigit_toDigits _)⟩
  rw [← List.append_assoc] at h
  rcases fracText_spec (fraction_eq hd).2 with ⟨-, htext⟩ | ⟨ds, htext, hdigits, -, hlast, -⟩
  · rw [htext, List.append_nil] at h
    exact absurd h (ne_append_cons hint)
  · rw [htext, List.append_cons_inj_of_notMem hint (point_notMem_of_digits hdigits)] at h
    rw [← h.2.2]
    exact hlast

/-- The integer digits and the fraction of a printed number are determined by its text. -/
lemma digits_fracText_inj {u v x y : ℕ} (hx : x < 10 ^ 9) (hy : y < 10 ^ 9)
    (h : Nat.toDigits 10 u ++ fracText x = Nat.toDigits 10 v ++ fracText y) :
    u = v ∧ x = y := by
  have hu := point_notMem_of_digits (isDigit_toDigits u)
  have hv := point_notMem_of_digits (isDigit_toDigits v)
  have hinj : Nat.toDigits 10 u = Nat.toDigits 10 v → u = v := by
    intro huv
    rw [← Nat.ofDigitChars_ten_toDigits (n := u), huv, Nat.ofDigitChars_ten_toDigits]
  rcases fracText_spec hx with ⟨hx0, hxt⟩ | ⟨ds, hxt, -, hxval, -, -⟩ <;>
    rcases fracText_spec hy with ⟨hy0, hyt⟩ | ⟨es, hyt, -, hyval, -, -⟩ <;>
    rw [hxt, hyt] at h
  · exact ⟨hinj (by simpa using h), by rw [hx0, hy0]⟩
  -- a text with a point is not one without
  · exact absurd (by simpa using h) (ne_append_cons hu)
  · exact absurd (by simpa using h.symm) (ne_append_cons hv)
  · obtain ⟨huv, hds⟩ := (append_cons_inj_left hu hv).mp h
    exact ⟨hinj huv, by rw [← hxval, ← hyval, hds]⟩

/-- The sign is determined by the text: a number starts with a digit. -/
lemma signChars_inj {a b : Decimal} {cs ds : List Char} {u v : ℕ}
    (h : signChars a ++ (Nat.toDigits 10 u ++ cs) = signChars b ++ (Nat.toDigits 10 v ++ ds)) :
    ((a.units.toInt < 0 ∨ a.nano.toInt < 0) ↔ (b.units.toInt < 0 ∨ b.nano.toInt < 0)) ∧
      Nat.toDigits 10 u ++ cs = Nat.toDigits 10 v ++ ds := by
  obtain ⟨p, ps, hp, hpm, -⟩ := toDigits_cons u
  obtain ⟨q, qs, hq, hqm, -⟩ := toDigits_cons v
  simp only [signChars] at h
  split at h <;> split at h
  · next ha hb => exact ⟨iff_of_true ha hb, by simpa using h⟩
  · next ha hb =>
    rw [hq] at h
    exact absurd (List.cons.inj h).1.symm hqm
  · next ha hb =>
    rw [hp] at h
    exact absurd (List.cons.inj h).1 hpm
  · next ha hb => exact ⟨iff_of_false ha hb, by simpa using h⟩

/-- No two canonical decimals print alike. -/
lemma printed_inj {a b : Decimal} (ha : a.Canonical) (hb : b.Canonical)
    (h : signChars a ++ (Nat.toDigits 10 a.units.toInt.natAbs ++ fracText a.nano.toInt.natAbs)
      = signChars b ++ (Nat.toDigits 10 b.units.toInt.natAbs
        ++ fracText b.nano.toInt.natAbs)) : a = b := by
  obtain ⟨hsign, hrest⟩ := signChars_inj h
  obtain ⟨hunits, hnano⟩ := digits_fracText_inj (fraction_eq ha).2 (fraction_eq hb).2 hrest
  -- equal magnitudes with the same sign have equal totals
  refine canonical_ext ha hb ?_
  simp only [Canonical, value, kNano] at ha hb ⊢
  omega

/-- **Printing then parsing.** A canonical decimal other than one with `-2^63` units is
printed and parsed back without an overflow; the printed form of a canonical decimal has no
trailing zero after the point; and printing is injective on canonical decimals. -/
theorem decimal_text_roundtrip :
    (∀ d : Decimal, d.Canonical → -2 ^ 63 < d.units.toInt →
      ∃ s, d.toString = some s ∧ fromString s = some (some d)) ∧
    (∀ d : Decimal, d.Canonical → ∃ s, d.toString = some s ∧
      ∀ before after, s.toList = before ++ '.' :: after → after.getLast? ≠ some '0') ∧
    ∀ a b : Decimal, a.Canonical → b.Canonical → a.toString = b.toString → a = b := by
  have hprint : ∀ d : Decimal, d.Canonical → d.toString = some (String.ofList (signChars d
      ++ (Nat.toDigits 10 d.units.toInt.natAbs ++ fracText d.nano.toInt.natAbs))) := by
    intro d hd
    rw [Decimal.toString, toChars_eq hd]
    rfl
  refine ⟨fun d hd hmin => ⟨_, hprint d hd, ?_⟩, fun d hd => ⟨_, hprint d hd, ?_⟩, ?_⟩
  · rw [fromString, String.toList_ofList, fromChars_printed hd hmin]
  · intro before after h
    rw [String.toList_ofList] at h
    exact printed_no_trailing_zero hd h
  · intro a b ha hb h
    rw [hprint a ha, hprint b hb, Option.some.injEq, String.ofList_inj] at h
    exact printed_inj ha hb h

/-- `-7.01` round-trips, has no trailing zero, and prints apart from `-7.1`. -/
theorem decimal_text_roundtrip_at :
    (∃ s, Decimal.toString ⟨-7, -10000000⟩ = some s ∧
      fromString s = some (some ⟨-7, -10000000⟩)) ∧
    (∃ s, Decimal.toString ⟨-7, -10000000⟩ = some s ∧
      ∀ before after, s.toList = before ++ '.' :: after → after.getLast? ≠ some '0') ∧
    Decimal.toString ⟨-7, -10000000⟩ ≠ Decimal.toString ⟨-7, -100000000⟩ :=
  ⟨decimal_text_roundtrip.1 ⟨-7, -10000000⟩ (by decide) (by decide),
    decimal_text_roundtrip.2.1 ⟨-7, -10000000⟩ (by decide),
    fun h => absurd (decimal_text_roundtrip.2.2 ⟨-7, -10000000⟩ ⟨-7, -100000000⟩ (by decide)
      (by decide) h) (by decide)⟩

example : Decimal.toString ⟨-7, -10000000⟩ = some "-7.01" := by decide

end Decimal
end TInvest
