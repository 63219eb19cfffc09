import TInvest.Decimal.Basic

/-!
# `Decimal` as a model of nano-units

* totals never overflow, and a canonical pair is determined by its total;
* `fromTotal_spec`, `normalize_spec` — the two ways a pair is built are exact on every
  total a canonical pair has;
* `decimal_exact` — the constructors and the operators compute exactly whenever the
  result is the total of a canonical pair, and the two comparisons agree;
* `invariant_kept_iff` — which operands keep the class invariant when the result need not
  fit: `from_total` narrows the quotient but keeps the remainder's sign.
-/

namespace TInvest
namespace Decimal

open Lib.Signed

/-! ## Ranges -/

lemma fits128_of_bounds {x : ℤ} (h : -2 ^ 127 ≤ x) (h' : x < 2 ^ 127) : Fits 128 x := ⟨h, h'⟩

/-- The operands' own ranges bound their total. -/
lemma value_bounds (d : Decimal) :
    -9223372036854775808 * kNano - 2147483648 ≤ d.value ∧
      d.value ≤ 9223372036854775807 * kNano + 2147483647 := by
  have hu := d.units.le_toInt
  have hu' := d.units.toInt_lt
  have hn := d.nano.le_toInt
  have hn' := d.nano.toInt_lt
  simp only [value, kNano]
  omega

/-- No step of `total` overflows. -/
lemma total_eq (d : Decimal) : d.total = some d.value := by
  have hu := d.units.le_toInt
  have hu' := d.units.toInt_lt
  have hn := d.nano.le_toInt
  have hn' := d.nano.toInt_lt
  have hscaled : Fits 128 (d.units.toInt * kNano) := by
    refine fits128_of_bounds ?_ ?_ <;> simp only [kNano] <;> omega
  have hsum : Fits 128 (d.units.toInt * kNano + d.nano.toInt) := by
    refine fits128_of_bounds ?_ ?_ <;> simp only [kNano] <;> omega
  simp only [total, checked_of_fits hscaled, Option.bind_eq_bind, Option.bind_some,
    checked_of_fits hsum, value]

/-- A canonical pair is determined by its total. -/
lemma canonical_ext {a b : Decimal} (ha : a.Canonical) (hb : b.Canonical)
    (h : a.value = b.value) : a = b := by
  simp only [Canonical, value, kNano] at ha hb h
  -- the fields agree in sign and `nano` is less than a unit, so the total fixes both
  have hunits : a.units.toInt = b.units.toInt := by omega
  have hnano : a.nano.toInt = b.nano.toInt := by omega
  cases a
  cases b
  simp only [Int64.toInt_inj, Int32.toInt_inj] at hunits hnano
  rw [hunits, hnano]

/-! ## `from_total` -/

/-- The fields of `from_total t`: the remainder is exact, the quotient is exact up to a
multiple of `2^64`. -/
lemma fromTotal_fields (t : ℤ) :
    (fromTotal t).nano.toInt = t.tmod kNano ∧
      ∃ n : ℤ, (fromTotal t).units.toInt = t.tdiv kNano + n * 2 ^ 64 := by
  obtain ⟨-, hlt, hgt, -, -⟩ := tdiv_tmod_spec t (k := kNano) (by decide)
  refine ⟨toInt_ofInt32 ?_, toInt_ofInt64_wraps _⟩
  simp only [Fits, kNano] at hlt hgt ⊢
  omega

/-- The totals of canonical pairs. -/
def InRange (t : ℤ) : Prop := -9223372036854775809 * kNano < t ∧ t < 9223372036854775808 * kNano

instance (t : ℤ) : Decidable (InRange t) := inferInstanceAs (Decidable (_ ∧ _))

lemma value_inRange {d : Decimal} (hd : d.Canonical) : InRange d.value := by
  have hu := d.units.le_toInt
  have hu' := d.units.toInt_lt
  simp only [InRange, Canonical, value, kNano] at hd ⊢
  omega

/-- `from_total` is exact on the total of a canonical pair. -/
lemma fromTotal_spec {t : ℤ} (h : InRange t) :
    (fromTotal t).Canonical ∧ (fromTotal t).value = t := by
  obtain ⟨hrec, hlt, hgt, hpos, hneg⟩ := tdiv_tmod_spec t (k := kNano) (by decide)
  obtain ⟨hnano, n, hunits⟩ := fromTotal_fields t
  have hu := (fromTotal t).units.le_toInt
  have hu' := (fromTotal t).units.toInt_lt
  -- the quotient fits, so the multiple of `2^64` is zero
  simp only [InRange, kNano] at h hrec hlt hgt hpos hneg hnano hunits
  simp only [Canonical, value, kNano, hnano]
  omega

/-- The representable totals form an interval. -/
lemma representable_iff (t : ℤ) : Representable t ↔ InRange t := by
  constructor
  · intro ⟨d, hd, hval⟩
    rw [← hval]
    exact value_inRange hd
  · intro h
    exact ⟨fromTotal t, fromTotal_spec h⟩

/-- On the total of a canonical pair, `from_total` builds that pair. -/
lemma fromTotal_value {c : Decimal} (hc : c.Canonical) : fromTotal c.value = c := by
  obtain ⟨hcan, hval⟩ := fromTotal_spec (value_inRange hc)
  exact canonical_ext hcan hc hval

/-! ## `normalize` -/

/-- The carry keeps the total and leaves less than a unit in `nano`, without overflow,
whenever the total is that of a canonical pair. -/
lemma carry_spec {units : Int64} {nano : Int32}
    (h : InRange (units.toInt * kNano + nano.toInt)) :
    ∃ u n, carry units nano = some (u, n) ∧ -kNano < n.toInt ∧ n.toInt < kNano ∧
      u.toInt * kNano + n.toInt = units.toInt * kNano + nano.toInt := by
  have hu := units.le_toInt
  have hu' := units.toInt_lt
  have hn := nano.le_toInt
  have hn' := nano.toInt_lt
  by_cases hc : nano.toInt ≤ -kNano ∨ kNano ≤ nano.toInt
  · obtain ⟨hrec, hlt, hgt, hpos, hneg⟩ := tdiv_tmod_spec nano.toInt (k := kNano) (by decide)
    -- the carried units are within one of the canonical ones
    have hfit : Fits 64 (units.toInt + nano.toInt.tdiv kNano) := by
      simp only [InRange, Fits, kNano] at *
      omega
    have hfit' : Fits 32 (nano.toInt.tmod kNano) := by
      simp only [Fits, kNano] at *
      omega
    refine ⟨Int64.ofInt (units.toInt + nano.toInt.tdiv kNano),
      Int32.ofInt (nano.toInt.tmod kNano), ?_, ?_⟩
    · rw [carry, if_pos hc, checked64_of_fits hfit]
      rfl
    · rw [toInt_ofInt32 hfit', toInt_ofInt64 hfit]
      simp only [kNano] at *
      omega
  · refine ⟨units, nano, ?_, ?_⟩
    · rw [carry, if_neg hc]
      rfl
    · simp only [kNano, and_true] at *
      omega

/-- The borrow keeps the total and makes the pair canonical. It never overflows: it moves
`units` towards zero. -/
lemma borrow_spec (units : Int64) {nano : Int32}
    (hlow : -kNano < nano.toInt) (hhigh : nano.toInt < kNano) :
    ∃ d, borrow units nano = some d ∧ d.Canonical ∧
      d.value = units.toInt * kNano + nano.toInt := by
  have hu := units.le_toInt
  have hu' := units.toInt_lt
  simp only [kNano] at hlow hhigh
  by_cases hpos : 0 < units.toInt ∧ nano.toInt < 0
  · -- a positive number borrows a unit
    have hfit : Fits 64 (units.toInt - 1) := by simp only [Fits]; omega
    have hfit' : Fits 32 (nano.toInt + kNano) := by simp only [Fits, kNano]; omega
    refine ⟨⟨Int64.ofInt (units.toInt - 1), Int32.ofInt (nano.toInt + kNano)⟩, ?_, ?_⟩
    · rw [borrow, if_pos hpos, checked64_of_fits hfit]
      rfl
    · simp only [Canonical, value, toInt_ofInt32 hfit', toInt_ofInt64 hfit]
      simp only [kNano]
      omega
  · by_cases hneg : units.toInt < 0 ∧ 0 < nano.toInt
    · -- a negative one gives a unit back
      have hfit : Fits 64 (units.toInt + 1) := by simp only [Fits]; omega
      have hfit' : Fits 32 (nano.toInt - kNano) := by simp only [Fits, kNano]; omega
      refine ⟨⟨Int64.ofInt (units.toInt + 1), Int32.ofInt (nano.toInt - kNano)⟩, ?_, ?_⟩
      · rw [borrow, if_neg hpos, if_pos hneg, checked64_of_fits hfit]
        rfl
      · simp only [Canonical, value, toInt_ofInt32 hfit', toInt_ofInt64 hfit]
        simp only [kNano]
        omega
    · -- the signs do not oppose
      refine ⟨⟨units, nano⟩, ?_, ?_⟩
      · rw [borrow, if_neg hpos, if_neg hneg]
        rfl
      · simp only [Canonical, value, kNano, and_true]
        omega

/-- `normalize` builds the canonical pair of its total, for every wire pair whose total has
one. -/
lemma normalize_spec {units : Int64} {nano : Int32} {c : Decimal} (hc : c.Canonical)
    (h : c.value = units.toInt * kNano + nano.toInt) : normalize units nano = some c := by
  obtain ⟨u, n, hcarry, hlow, hhigh, hval⟩ := carry_spec (h ▸ value_inRange hc)
  obtain ⟨d, hborrow, hd, hdval⟩ := borrow_spec u hlow hhigh
  have hdc : d = c := canonical_ext hd hc (by rw [hdval, hval, h])
  rw [normalize, hcarry, ← hdc]
  exact hborrow

/-! ## The operators -/

/-- Sums of two totals are far inside the 128-bit range. -/
lemma add_eq (a b : Decimal) : a.add b = some (fromTotal (a.value + b.value)) := by
  have ha := value_bounds a
  have hb := value_bounds b
  have hfit : Fits 128 (a.value + b.value) := by
    refine fits128_of_bounds ?_ ?_ <;> simp only [kNano] at ha hb <;> omega
  simp only [add, total_eq, Option.bind_eq_bind, Option.bind_some, checked_of_fits hfit]
  rfl

lemma sub_eq (a b : Decimal) : a.sub b = some (fromTotal (a.value - b.value)) := by
  have ha := value_bounds a
  have hb := value_bounds b
  have hfit : Fits 128 (a.value - b.value) := by
    refine fits128_of_bounds ?_ ?_ <;> simp only [kNano] at ha hb <;> omega
  simp only [sub, total_eq, Option.bind_eq_bind, Option.bind_some, checked_of_fits hfit]
  rfl

lemma neg_eq (a : Decimal) : a.neg = some (fromTotal (-a.value)) := by
  have ha := value_bounds a
  have hfit : Fits 128 (-a.value) := by
    refine fits128_of_bounds ?_ ?_ <;> simp only [kNano] at ha <;> omega
  simp only [neg, total_eq, Option.bind_eq_bind, Option.bind_some, checked_of_fits hfit]
  rfl

/-- A product that is the total of a canonical pair does not overflow. -/
lemma mulInt_eq {a : Decimal} {k : Int64} (h : InRange (a.value * k.toInt)) :
    a.mulInt k = some (fromTotal (a.value * k.toInt)) := by
  have hfit : Fits 128 (a.value * k.toInt) := by
    refine fits128_of_bounds ?_ ?_ <;> simp only [InRange, kNano] at h <;> omega
  simp only [mulInt, total_eq, Option.bind_eq_bind, Option.bind_some, checked_of_fits hfit]
  rfl

lemma lt_eq (a b : Decimal) : a.lt b = some (decide (a.value < b.value)) := by
  simp only [lt, total_eq, Option.bind_eq_bind, Option.bind_some]
  rfl

lemma eq_iff (a b : Decimal) : a.eq b = true ↔ a = b := by
  cases a
  cases b
  simp [eq]

/-- On canonical pairs the field comparison is the comparison of the totals. -/
lemma eq_iff_value {a b : Decimal} (ha : a.Canonical) (hb : b.Canonical) :
    a.eq b = true ↔ a.value = b.value := by
  rw [eq_iff]
  exact ⟨fun h => h ▸ rfl, canonical_ext ha hb⟩

/-- **Exactness.** The constructors build the canonical pair of every wire pair whose total
has one; `+`, `-`, unary `-` and `* k` return the canonical pair of the mathematical result
whenever there is one, without a signed overflow on the way; and on canonical pairs `==`
and `<` are the comparisons of the totals, so exactly one of `<`, `==`, `>` holds. -/
theorem decimal_exact :
    (∀ (units : Int64) (nano : Int32) (c : Decimal), c.Canonical →
      c.value = units.toInt * kNano + nano.toInt → make units nano = some c) ∧
    (∀ d : Decimal, d.Canonical → ofQuotation d.toQuotation = some d) ∧
    (∀ q : Pb.Quotation, Representable (q.units.toInt * kNano + q.nano.toInt) →
      ∃ d, ofQuotation q = some d ∧ d.Canonical ∧
        d.value = q.units.toInt * kNano + q.nano.toInt) ∧
    (∀ a b c : Decimal, a.Canonical → b.Canonical → c.Canonical →
      (c.value = a.value + b.value → a.add b = some c) ∧
      (c.value = a.value - b.value → a.sub b = some c) ∧
      (c.value = -a.value → a.neg = some c) ∧
      ∀ k : Int64, c.value = a.value * k.toInt → a.mulInt k = some c) ∧
    ∀ a b : Decimal, a.Canonical → b.Canonical →
      (a.eq b = true ↔ a.value = b.value) ∧
      (a.lt b = some true ↔ a.value < b.value) ∧
      (a.lt b = some true ∧ a.eq b = false ∧ b.lt a = some false ∨
        a.lt b = some false ∧ a.eq b = true ∧ b.lt a = some false ∨
        a.lt b = some false ∧ a.eq b = false ∧ b.lt a = some true) := by
  refine ⟨fun units nano c hc h => normalize_spec hc h, fun d hd => normalize_spec hd rfl,
    ?_, ?_, ?_⟩
  · intro q ⟨d, hd, hval⟩
    exact ⟨d, normalize_spec hd hval, hd, hval⟩
  · intro a b c _ _ hc
    -- each operator is `from_total` of the mathematical result
    refine ⟨fun h => ?_, fun h => ?_, fun h => ?_, fun k h => ?_⟩
    · rw [add_eq, ← h, fromTotal_value hc]
    · rw [sub_eq, ← h, fromTotal_value hc]
    · rw [neg_eq, ← h, fromTotal_value hc]
    · rw [mulInt_eq (h ▸ value_inRange hc), ← h, fromTotal_value hc]
  · intro a b ha hb
    have heq := eq_iff_value ha hb
    -- both comparisons are those of the totals, which are linearly ordered
    refine ⟨heq, by simp [lt_eq], ?_⟩
    rcases lt_trichotomy a.value b.value with h | h | h
    · exact Or.inl ⟨by simp [lt_eq, h], by rw [Bool.eq_false_iff, Ne, heq]; exact h.ne,
        by simp [lt_eq, h.le]⟩
    · exact Or.inr (Or.inl ⟨by simp [lt_eq, h], heq.mpr h, by simp [lt_eq, h]⟩)
    · exact Or.inr (Or.inr ⟨by simp [lt_eq, h.le],
        by rw [Bool.eq_false_iff, Ne, heq]; exact h.ne', by simp [lt_eq, h]⟩)

/-- At the low end of the range: the wire pair `-2^63 + 1` units and `-1.9·10⁹` nano carries
into `-2^63` units, and `0.25 - 1` borrows. -/
theorem decimal_exact_low_end :
    make (-9223372036854775807) (-1900000000)
        = some ⟨-9223372036854775808, -900000000⟩ ∧
      ofQuotation (toQuotation ⟨-1, -5⟩) = some ⟨-1, -5⟩ ∧
      (∃ d, ofQuotation ⟨1, -1500000000⟩ = some d ∧ d.Canonical ∧
        d.value = (1 : Int64).toInt * kNano + (-1500000000 : Int32).toInt) ∧
      sub ⟨0, 250000000⟩ ⟨1, 0⟩ = some ⟨0, -750000000⟩ ∧
      (eq ⟨1, 0⟩ ⟨1, 0⟩ = true ↔ value ⟨1, 0⟩ = value ⟨1, 0⟩) :=
  ⟨decimal_exact.1 _ _ ⟨-9223372036854775808, -900000000⟩ (by decide) (by decide),
    decimal_exact.2.1 ⟨-1, -5⟩ (by decide),
    decimal_exact.2.2.1 ⟨1, -1500000000⟩ ⟨⟨0, -500000000⟩, by decide, by decide⟩,
    (decimal_exact.2.2.2.1 ⟨0, 250000000⟩ ⟨1, 0⟩ ⟨0, -750000000⟩ (by decide) (by decide)
      (by decide)).2.1 (by decide),
    (decimal_exact.2.2.2.2 ⟨1, 0⟩ ⟨1, 0⟩ (by decide) (by decide)).1⟩

/-! ## Results that need not fit

`from_total` wraps a quotient outside `int64` and keeps the remainder, so a sum beyond the
range can come out with opposite signs. -/

/-- `a + b` keeps the invariant and the sign of the sum: the sum fits, or it is so far below
the range that its wrapped quotient is `0` or `-1` again. -/
def AddKeeps (a b : Decimal) : Prop :=
  InRange (a.value + b.value) ∨ a.value + b.value < -18446744073709551616 * kNano

/-- `a - b` keeps the invariant: the difference fits, is a whole number of units, or its
quotient wraps to `0`. -/
def SubKeeps (a b : Decimal) : Prop :=
  InRange (a.value - b.value) ∨ kNano ∣ a.value - b.value ∨
    18446744073709551616 * kNano ≤ a.value - b.value ∨
    a.value - b.value ≤ -18446744073709551616 * kNano

/-- `-a` keeps the invariant: `a` is not a fractional number below `-2^63`. -/
def NegKeeps (a : Decimal) : Prop := ¬ (a.units.toInt = -9223372036854775808 ∧ a.nano.toInt ≠ 0)

/-- A chain of additions, subtractions and negations. -/
inductive Chain where
  | val (d : Decimal)
  | add (x y : Chain)
  | sub (x y : Chain)
  | neg (x : Chain)

namespace Chain

/-- The Decimal a chain reaches. -/
def eval : Chain → Checked Decimal
  | val d => some d
  | add x y => do (← x.eval).add (← y.eval)
  | sub x y => do (← x.eval).sub (← y.eval)
  | neg x => do (← x.eval).neg

/-- Canonical starting values, and each operation's operands meet its condition. -/
def Keeps : Chain → Prop
  | val d => d.Canonical
  | add x y => x.Keeps ∧ y.Keeps ∧ ∀ a ∈ x.eval, ∀ b ∈ y.eval, AddKeeps a b
  | sub x y => x.Keeps ∧ y.Keeps ∧ ∀ a ∈ x.eval, ∀ b ∈ y.eval, SubKeeps a b
  | neg x => x.Keeps ∧ ∀ a ∈ x.eval, NegKeeps a

end Chain

/-- Two integers have the same sign exactly when they are positive together and negative
together. -/
lemma sign_eq_sign_iff (x y : ℤ) : x.sign = y.sign ↔ (0 < x ↔ 0 < y) ∧ (x < 0 ↔ y < 0) := by
  constructor
  · intro h
    rw [← Int.sign_eq_one_iff_pos, ← Int.sign_eq_one_iff_pos, ← Int.sign_eq_neg_one_iff_neg,
      ← Int.sign_eq_neg_one_iff_neg, h]
    exact ⟨Iff.rfl, Iff.rfl⟩
  · intro ⟨hpos, hneg⟩
    rcases lt_trichotomy x 0 with h | h | h
    · rw [Int.sign_eq_neg_one_of_neg h, Int.sign_eq_neg_one_of_neg (hneg.mp h)]
    · have hy : y = 0 := by omega
      rw [h, hy]
    · rw [Int.sign_eq_one_of_pos h, Int.sign_eq_one_of_pos (hpos.mp h)]

/-- When a wrapped total is canonical and keeps its sign, over the range of a sum of two
canonical pairs. -/
lemma fromTotal_keeps_sign_iff {t : ℤ} (hlow : -18446744073709551618 * kNano < t)
    (hhigh : t < 18446744073709551616 * kNano) :
    ((fromTotal t).Canonical ∧ (fromTotal t).value.sign = t.sign) ↔
      InRange t ∨ t < -18446744073709551616 * kNano := by
  obtain ⟨hrec, hlt, hgt, hpos, hneg⟩ := tdiv_tmod_spec t (k := kNano) (by decide)
  obtain ⟨hnano, n, hunits⟩ := fromTotal_fields t
  have hu := (fromTotal t).units.le_toInt
  have hu' := (fromTotal t).units.toInt_lt
  rw [sign_eq_sign_iff]
  -- the bounds leave the wraps by `0` and by one `2^64` up or down
  simp only [Canonical, value, InRange, hnano, hunits]
  simp only [kNano, hunits] at *
  omega

/-- When a wrapped total is canonical, over the range of a difference of two canonical
pairs. -/
lemma fromTotal_keeps_iff {t : ℤ} (hlow : -18446744073709551617 * kNano < t)
    (hhigh : t < 18446744073709551617 * kNano) :
    (fromTotal t).Canonical ↔
      InRange t ∨ kNano ∣ t ∨ 18446744073709551616 * kNano ≤ t ∨
        t ≤ -18446744073709551616 * kNano := by
  obtain ⟨hrec, hlt, hgt, hpos, hneg⟩ := tdiv_tmod_spec t (k := kNano) (by decide)
  obtain ⟨hnano, n, hunits⟩ := fromTotal_fields t
  have hu := (fromTotal t).units.le_toInt
  have hu' := (fromTotal t).units.toInt_lt
  simp only [Canonical, InRange, hnano, hunits]
  simp only [kNano, hunits] at *
  omega

/-- `a + b` keeps the invariant and the sign exactly under `AddKeeps`. -/
lemma add_keeps_iff {a b : Decimal} (ha : a.Canonical) (hb : b.Canonical) :
    (∃ c, a.add b = some c ∧ c.Canonical ∧ c.value.sign = (a.value + b.value).sign) ↔
      AddKeeps a b := by
  have ha' := value_inRange ha
  have hb' := value_inRange hb
  simp only [InRange, kNano] at ha' hb'
  rw [AddKeeps, ← fromTotal_keeps_sign_iff (by simp only [kNano]; omega)
    (by simp only [kNano]; omega), add_eq]
  simp only [Option.some.injEq, exists_eq_left']

/-- `a - b` keeps the invariant exactly under `SubKeeps`. -/
lemma sub_keeps_iff {a b : Decimal} (ha : a.Canonical) (hb : b.Canonical) :
    (∃ c, a.sub b = some c ∧ c.Canonical) ↔ SubKeeps a b := by
  have ha' := value_inRange ha
  have hb' := value_inRange hb
  simp only [InRange, kNano] at ha' hb'
  rw [SubKeeps, ← fromTotal_keeps_iff (by simp only [kNano]; omega)
    (by simp only [kNano]; omega), sub_eq]
  simp only [Option.some.injEq, exists_eq_left']

/-- `-a` keeps the invariant exactly under `NegKeeps`. -/
lemma neg_keeps_iff {a : Decimal} (ha : a.Canonical) :
    (∃ c, a.neg = some c ∧ c.Canonical) ↔ NegKeeps a := by
  have hu := a.units.le_toInt
  have hu' := a.units.toInt_lt
  -- the range is one unit longer below zero than above
  have ha' := value_inRange ha
  simp only [InRange, kNano] at ha'
  rw [neg_eq]
  simp only [Option.some.injEq, exists_eq_left']
  rw [fromTotal_keeps_iff (by simp only [kNano]; omega) (by simp only [kNano]; omega)]
  simp only [Canonical, InRange, NegKeeps, value, kNano] at ha ⊢
  omega

/-- A chain whose operations all meet their conditions runs and stays canonical. -/
lemma chain_keeps (x : Chain) (h : x.Keeps) : ∃ d, x.eval = some d ∧ d.Canonical := by
  -- along the chain, each operation finds canonical operands
  induction x with
  | val d => exact ⟨d, rfl, h⟩
  | add x y ihx ihy =>
    obtain ⟨hx, hy, hop⟩ := h
    obtain ⟨a, hax, ha⟩ := ihx hx
    obtain ⟨b, hby, hb⟩ := ihy hy
    obtain ⟨c, hc, hcan, -⟩ := (add_keeps_iff ha hb).mpr (hop a hax b hby)
    exact ⟨c, by simp [Chain.eval, hax, hby, hc], hcan⟩
  | sub x y ihx ihy =>
    obtain ⟨hx, hy, hop⟩ := h
    obtain ⟨a, hax, ha⟩ := ihx hx
    obtain ⟨b, hby, hb⟩ := ihy hy
    obtain ⟨c, hc, hcan⟩ := (sub_keeps_iff ha hb).mpr (hop a hax b hby)
    exact ⟨c, by simp [Chain.eval, hax, hby, hc], hcan⟩
  | neg x ih =>
    obtain ⟨hx, hop⟩ := h
    obtain ⟨a, hax, ha⟩ := ih hx
    obtain ⟨c, hc, hcan⟩ := (neg_keeps_iff ha).mpr (hop a hax)
    exact ⟨c, by simp [Chain.eval, hax, hc], hcan⟩

/-- **Closure of the class invariant.** For canonical operands, `a + b` is canonical with
the sign of the sum, `a - b` is canonical and `-a` is canonical, each exactly under its
condition above; and every chain of these operations whose steps meet them reaches a
canonical value. -/
theorem invariant_kept_iff (a b : Decimal) (ha : a.Canonical) (hb : b.Canonical) :
    ((∃ c, a.add b = some c ∧ c.Canonical ∧ c.value.sign = (a.value + b.value).sign) ↔
      AddKeeps a b) ∧
    ((∃ c, a.sub b = some c ∧ c.Canonical) ↔ SubKeeps a b) ∧
    ((∃ c, a.neg = some c ∧ c.Canonical) ↔ NegKeeps a) ∧
    ∀ x : Chain, x.Keeps → ∃ d, x.eval = some d ∧ d.Canonical :=
  ⟨add_keeps_iff ha hb, sub_keeps_iff ha hb, neg_keeps_iff ha, chain_keeps⟩

/-- The conditions hold of `10.5` and `2.25`, and of the chain `(10.5 + 2.25) - 10.5`. -/
theorem invariant_kept_at_small :
    ((∃ c, add ⟨10, 500000000⟩ ⟨2, 250000000⟩ = some c ∧ c.Canonical ∧
        c.value.sign = (value ⟨10, 500000000⟩ + value ⟨2, 250000000⟩).sign) ∧
      (∃ c, sub ⟨10, 500000000⟩ ⟨2, 250000000⟩ = some c ∧ c.Canonical) ∧
      ∃ c, neg ⟨10, 500000000⟩ = some c ∧ c.Canonical) ∧
    ∃ d, (Chain.sub (.add (.val ⟨10, 500000000⟩) (.val ⟨2, 250000000⟩))
      (.val ⟨10, 500000000⟩)).eval = some d ∧ d.Canonical := by
  obtain ⟨hadd, hsub, hneg, hchain⟩ :=
    invariant_kept_iff ⟨10, 500000000⟩ ⟨2, 250000000⟩ (by decide) (by decide)
  refine ⟨⟨hadd.mpr (Or.inl (by decide)), hsub.mpr (Or.inl (by decide)), hneg.mpr ?_⟩,
    hchain _ ⟨⟨?_, ?_, ?_⟩, ?_, ?_⟩⟩
  · simp only [NegKeeps]
    decide
  · exact (by decide : Canonical ⟨10, 500000000⟩)
  · exact (by decide : Canonical ⟨2, 250000000⟩)
  · intro a ha b hb
    obtain rfl := Option.some.inj ha
    obtain rfl := Option.some.inj hb
    exact Or.inl (by decide)
  · exact (by decide : Canonical ⟨10, 500000000⟩)
  · have hsum : (Chain.add (.val ⟨10, 500000000⟩) (.val ⟨2, 250000000⟩)).eval
        = some ⟨12, 750000000⟩ := by decide
    intro a ha b hb
    rw [Option.mem_def, hsum] at ha
    obtain rfl := Option.some.inj ha
    obtain rfl := Option.some.inj hb
    exact Or.inl (by decide)

/-- Twice the largest canonical Decimal: the quotient `2^64 - 1` becomes `-1` while the
remainder stays positive. -/
theorem invariant_broken_at_max :
    (⟨9223372036854775807, 999999999⟩ : Decimal).Canonical ∧
      add ⟨9223372036854775807, 999999999⟩ ⟨9223372036854775807, 999999999⟩
        = some ⟨-1, 999999998⟩ ∧
      ¬ (⟨-1, 999999998⟩ : Decimal).Canonical ∧
      ¬ (∀ a b : Decimal, a.Canonical → b.Canonical →
        (∃ c, a.add b = some c ∧ c.Canonical ∧
          c.value.sign = (a.value + b.value).sign) ∧
        (∃ c, a.sub b = some c ∧ c.Canonical) ∧ ∃ c, a.neg = some c ∧ c.Canonical) := by
  have hsum : add ⟨9223372036854775807, 999999999⟩ ⟨9223372036854775807, 999999999⟩
      = some ⟨-1, 999999998⟩ := by decide
  -- the result has opposite signs
  refine ⟨by decide, hsum, by decide, fun h => ?_⟩
  obtain ⟨⟨c, hc, hcan, -⟩, -⟩ := h ⟨9223372036854775807, 999999999⟩
    ⟨9223372036854775807, 999999999⟩ (by decide) (by decide)
  rw [hsum] at hc
  obtain rfl := Option.some.inj hc
  exact absurd hcan (by decide)

end Decimal
end TInvest
