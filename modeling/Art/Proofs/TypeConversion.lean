import Art.Compiler.TypeConversion

/-!
# Folded floating to integral conversions against Java's

Java converts a floating value to an integral type by truncating toward zero and clamping to the
type's range, with NaN giving zero (JLS 5.1.3, `javaFloatToIntegral`).  A guard chain whose upper
limit rounds to the type's maximum or just above it, and whose lower limit is the type's minimum,
computes exactly that, and only casts values whose truncation fits (`guardedToIntegral_eq_java`).
`art_float_to_integral` does too (`artFloatToIntegral_eq_java`).  Folding a float to `int` or
`long`, or a double to `long`, is such a chain (`tryStaticEvaluation_floatToIntegral`).  Folding a
double to `int` compares with `kPrimLongMin` below, so a double in `(-2^63, -2^31 - 1]` reaches
`static_cast<int32_t>` out of range (`fold_float_to_integral_java`).
-/

namespace Art

open BinaryFloat FloatVal

namespace TypeConversion

/-- JLS 5.1.3: NaN to zero, anything else truncated toward zero and clamped to the `w`-bit
range, the infinities to its ends. -/
def javaFloatToIntegral (w : Nat) : FloatVal → BitVec w
  | .nan => 0
  | .inf neg => BitVec.ofInt w (if neg then -2 ^ (w - 1) else 2 ^ (w - 1) - 1)
  | .num q => BitVec.ofInt w (max (-2 ^ (w - 1)) (min (2 ^ (w - 1) - 1) (trunc q)))

section Limits

/-! The limits the conversions compare with, in the formats they compare in. -/

theorem round_binary32_intMax : binary32.round (2 ^ 31 - 1 : ℤ) = .num (2 ^ 31) :=
  binary32.round_of_pos 30 (by norm_num) (by norm_num) (by norm_num [binary32])
    (by norm_num [roundHalfEven, binary32]) (binary32.two_pow_le_maxFinite (by decide) 31 (by decide))

theorem round_binary32_intMin : binary32.round (-2 ^ 31 : ℤ) = .num (-2 ^ 31) :=
  binary32.round_of_neg 31 (by norm_num) (by norm_num) (by norm_num [binary32])
    (by norm_num [roundHalfEven, binary32]) (binary32.two_pow_le_maxFinite (by decide) 31 (by decide))

theorem round_binary32_longMax : binary32.round (2 ^ 63 - 1 : ℤ) = .num (2 ^ 63) :=
  binary32.round_of_pos 62 (by norm_num) (by norm_num) (by norm_num [binary32])
    (by norm_num [roundHalfEven, binary32]) (binary32.two_pow_le_maxFinite (by decide) 63 (by decide))

theorem round_binary32_longMin : binary32.round (-2 ^ 63 : ℤ) = .num (-2 ^ 63) :=
  binary32.round_of_neg 63 (by norm_num) (by norm_num) (by norm_num [binary32])
    (by norm_num [roundHalfEven, binary32]) (binary32.two_pow_le_maxFinite (by decide) 63 (by decide))

theorem round_binary64_intMax : binary64.round (2 ^ 31 - 1 : ℤ) = .num (2 ^ 31 - 1) :=
  binary64.round_of_pos 30 (by norm_num) (by norm_num) (by norm_num [binary64])
    (by norm_num [roundHalfEven, binary64])
    (le_trans (by norm_num) (binary64.two_pow_le_maxFinite (by decide) 31 (by decide)))

theorem round_binary64_intMin : binary64.round (-2 ^ 31 : ℤ) = .num (-2 ^ 31) :=
  binary64.round_of_neg 31 (by norm_num) (by norm_num) (by norm_num [binary64])
    (by norm_num [roundHalfEven, binary64]) (binary64.two_pow_le_maxFinite (by decide) 31 (by decide))

theorem round_binary64_longMax : binary64.round (2 ^ 63 - 1 : ℤ) = .num (2 ^ 63) :=
  binary64.round_of_pos 62 (by norm_num) (by norm_num) (by norm_num [binary64])
    (by norm_num [roundHalfEven, binary64]) (binary64.two_pow_le_maxFinite (by decide) 63 (by decide))

theorem round_binary64_longMin : binary64.round (-2 ^ 63 : ℤ) = .num (-2 ^ 63) :=
  binary64.round_of_neg 63 (by norm_num) (by norm_num) (by norm_num [binary64])
    (by norm_num [roundHalfEven, binary64]) (binary64.two_pow_le_maxFinite (by decide) 63 (by decide))

end Limits

section Chain

@[simp] theorem ge_eq_le (x y : FloatVal) : x.ge y = y.le x := rfl

@[simp] theorem isNan_num (q : ℚ) : (num q).isNan = false := rfl

/-- Java's result for a finite value past the top of the range. -/
theorem javaFloatToIntegral_of_le (n : Nat) {q : ℚ} (h : (2 : ℚ) ^ n - 1 ≤ q) :
    javaFloatToIntegral (n + 1) (.num q) = BitVec.ofInt (n + 1) (2 ^ n - 1) := by
  have hpos : (0 : ℤ) < 2 ^ n := by positivity
  have ht : 2 ^ n - 1 ≤ trunc q := le_trunc_of_le (by omega) (by push_cast; exact h)
  simp only [javaFloatToIntegral, Nat.add_sub_cancel]
  rw [min_eq_left ht, max_eq_right (by omega)]

/-- Java's result for a finite value at or below the bottom of the range. -/
theorem javaFloatToIntegral_of_le_neg (n : Nat) {q : ℚ} (h : q ≤ -(2 : ℚ) ^ n) :
    javaFloatToIntegral (n + 1) (.num q) = BitVec.ofInt (n + 1) (-2 ^ n) := by
  have hpos : (0 : ℤ) < 2 ^ n := by positivity
  have ht : trunc q ≤ -2 ^ n := trunc_le_of_le (by omega) (by push_cast; exact h)
  simp only [javaFloatToIntegral, Nat.add_sub_cancel]
  rw [max_eq_left (le_trans (min_le_right _ _) ht)]

/-- Java's result for a finite value whose truncation fits. -/
theorem javaFloatToIntegral_of_mem (n : Nat) {q : ℚ} (h1 : -2 ^ n ≤ trunc q)
    (h2 : trunc q < 2 ^ n) :
    javaFloatToIntegral (n + 1) (.num q) = BitVec.ofInt (n + 1) (trunc q) := by
  simp only [javaFloatToIntegral, Nat.add_sub_cancel]
  rw [min_eq_right (by omega), max_eq_right h1]

/-- A guard chain with the `(n + 1)`-bit type's limits, its upper limit rounded to the maximum or
above it, is Java's conversion, and casts only what fits. -/
theorem guardedToIntegral_eq_java (n : Nat) (value : FloatVal) (M : ℚ)
    (hM1 : (2 : ℚ) ^ n - 1 ≤ M) (hM2 : M ≤ 2 ^ n) :
    guardedToIntegral (n + 1) value (.num M) (2 ^ n - 1) (.num (-2 ^ n)) (-2 ^ n) =
      some (javaFloatToIntegral (n + 1) value) := by
  cases value with
  | nan => rfl
  | inf neg =>
    cases neg <;> simp [guardedToIntegral, isNan, FloatVal.le, javaFloatToIntegral]
  | num q =>
    simp only [guardedToIntegral, isNan_num, Bool.false_eq_true, if_false, ge_eq_le, le_num_num,
      decide_eq_true_eq]
    by_cases hmax : M ≤ q
    · rw [if_pos hmax, javaFloatToIntegral_of_le n (le_trans hM1 hmax)]
    by_cases hmin : q ≤ -2 ^ n
    · rw [if_neg hmax, if_pos hmin, javaFloatToIntegral_of_le_neg n hmin]
    -- strictly inside the limits: the truncation fits
    have ht := trunc_mem_Ico (a := -2 ^ n) (b := 2 ^ n) (by push_cast; linarith)
      (by push_cast; linarith [not_le.1 hmax]) (by positivity)
    rw [if_neg hmax, if_neg hmin, toIntegral?_num, Nat.add_sub_cancel, if_pos ht,
      javaFloatToIntegral_of_mem n ht.1 ht.2]

@[simp] theorem lt_num_num (a b : ℚ) : (num a).lt (num b) = decide (a < b) := by
  simp only [FloatVal.lt, le_num_num]
  by_cases h : a < b
  · simp [h, h.le, not_le.2 h]
  · simp [h, not_lt.1 h]

/-- `art_float_to_integral` with limits that round as the guard chain's do is Java's
conversion. -/
theorem artFloatToIntegral_eq_java (n : Nat) (fmt : BinaryFloat.Format) (value : FloatVal)
    {M : ℚ} (hmax : fmt.round (2 ^ n - 1 : ℤ) = .num M) (hM1 : (2 : ℚ) ^ n - 1 ≤ M) (hM2 : M ≤ 2 ^ n)
    (hmin : fmt.round (-2 ^ n : ℤ) = .num (-2 ^ n)) :
    artFloatToIntegral (n + 1) fmt value = some (javaFloatToIntegral (n + 1) value) := by
  simp only [artFloatToIntegral, Nat.add_sub_cancel, hmax, hmin]
  cases value with
  | nan => rfl
  | inf neg =>
    cases neg <;> simp [FloatVal.lt, FloatVal.le, isNan, javaFloatToIntegral]
  | num q =>
    simp only [lt_num_num, decide_eq_true_eq, isNan_num, Bool.false_eq_true, if_false]
    by_cases hlow : -2 ^ n < q
    · rw [if_pos hlow]
      by_cases hhigh : q < M
      · -- inside the limits the cast is defined
        have ht := trunc_mem_Ico (a := -2 ^ n) (b := 2 ^ n) (by push_cast; linarith)
          (by push_cast; linarith) (by positivity)
        rw [if_pos hhigh, toIntegral?_num, Nat.add_sub_cancel, if_pos ht,
          javaFloatToIntegral_of_mem n ht.1 ht.2]
      · rw [if_neg hhigh, javaFloatToIntegral_of_le n (le_trans hM1 (not_lt.1 hhigh))]
    · rw [if_neg hlow, javaFloatToIntegral_of_le_neg n (not_lt.1 hlow)]

end Chain

section Fold

/-- The runtime's conversions, float or double to `int` or `long`, are Java's. -/
theorem artFloatToIntegral_java (value : FloatVal) :
    artFloatToIntegral 32 binary32 value = some (javaFloatToIntegral 32 value) ∧
    artFloatToIntegral 64 binary32 value = some (javaFloatToIntegral 64 value) ∧
    artFloatToIntegral 32 binary64 value = some (javaFloatToIntegral 32 value) ∧
    artFloatToIntegral 64 binary64 value = some (javaFloatToIntegral 64 value) :=
  ⟨artFloatToIntegral_eq_java 31 binary32 value round_binary32_intMax (by norm_num) le_rfl
      round_binary32_intMin,
    artFloatToIntegral_eq_java 63 binary32 value round_binary32_longMax (by norm_num) le_rfl
      round_binary32_longMin,
    artFloatToIntegral_eq_java 31 binary64 value round_binary64_intMax le_rfl (by norm_num)
      round_binary64_intMin,
    artFloatToIntegral_eq_java 63 binary64 value round_binary64_longMax (by norm_num) le_rfl
      round_binary64_longMin⟩

/-- Folding a float to `int` or `long`, or a double to `long`, is Java's conversion. -/
theorem tryStaticEvaluation_floatToIntegral (value : FloatVal) :
    tryStaticEvaluation (.float value) .int32 =
        some (some (.int (javaFloatToIntegral 32 value))) ∧
    tryStaticEvaluation (.float value) .int64 =
        some (some (.long (javaFloatToIntegral 64 value))) ∧
    tryStaticEvaluation (.double value) .int64 =
        some (some (.long (javaFloatToIntegral 64 value))) := by
  have h32 := guardedToIntegral_eq_java 31 value (2 ^ 31) (by norm_num) le_rfl
  have h64 := guardedToIntegral_eq_java 63 value (2 ^ 63) (by norm_num) le_rfl
  simp only [Nat.reduceAdd] at h32 h64
  simp only [tryStaticEvaluation, kPrimIntMax, kPrimIntMin, kPrimLongMax, kPrimLongMin,
    round_binary32_intMax, round_binary32_intMin, round_binary32_longMax, round_binary32_longMin,
    round_binary64_longMax, round_binary64_longMin, h32, h64, Option.map_some, and_self]

/-- Folding a double to `int` casts every double in `(-2^63, 2^31 - 1)`, so one whose truncation
is below `-2^31` is cast out of range. -/
theorem tryStaticEvaluation_double_int32_of_lt {q : ℚ} (hq1 : (kPrimLongMin : ℚ) < q)
    (hq2 : trunc q < kPrimIntMin) : tryStaticEvaluation (.double (.num q)) .int32 = none := by
  have hhigh : ¬ (2 : ℚ) ^ 31 - 1 ≤ q := by
    intro h
    have := le_trunc_of_le (q := q) (b := 2 ^ 31 - 1) (by norm_num) (by push_cast; linarith)
    rw [kPrimIntMin] at hq2
    omega
  have hlow : ¬ q ≤ -2 ^ 63 := by
    rw [kPrimLongMin] at hq1
    push_cast at hq1
    exact not_le.2 hq1
  have hfit : ¬ (-2 ^ (32 - 1) ≤ trunc q ∧ trunc q < 2 ^ (32 - 1)) := by
    rw [kPrimIntMin] at hq2
    omega
  simp only [tryStaticEvaluation, guardedToIntegral, kPrimIntMax, kPrimLongMin,
    round_binary64_intMax, round_binary64_longMin, isNan_num, Bool.false_eq_true, if_false,
    ge_eq_le, le_num_num, decide_eq_true_eq, if_neg hhigh, if_neg hlow, toIntegral?_num,
    if_neg hfit, Option.map_none]

/-- Every other double folds to `int` as Java converts it. -/
theorem tryStaticEvaluation_double_int32 (value : FloatVal)
    (h : ∀ q, value = .num q → (kPrimLongMin : ℚ) < q → kPrimIntMin ≤ trunc q) :
    tryStaticEvaluation (.double value) .int32 =
      some (some (.int (javaFloatToIntegral 32 value))) := by
  simp only [tryStaticEvaluation, kPrimIntMax, kPrimLongMin, round_binary64_intMax,
    round_binary64_longMin]
  cases value with
  | nan => rfl
  | inf neg =>
    cases neg <;> simp [guardedToIntegral, isNan, FloatVal.le, javaFloatToIntegral, kPrimIntMin]
  | num q =>
    simp only [guardedToIntegral, isNan_num, Bool.false_eq_true, if_false, ge_eq_le, le_num_num,
      decide_eq_true_eq]
    by_cases hhigh : (2 : ℚ) ^ 31 - 1 ≤ q
    · rw [if_pos hhigh, javaFloatToIntegral_of_le 31 hhigh]
      rfl
    by_cases hlow : q ≤ -2 ^ 63
    · -- below `kPrimLongMin` the result is `kPrimIntMin`, which is Java's too
      rw [if_neg hhigh, if_pos hlow,
        javaFloatToIntegral_of_le_neg 31 (le_trans hlow (by norm_num))]
      rfl
    have hq1 : (kPrimLongMin : ℚ) < q := by
      rw [kPrimLongMin]
      push_cast
      exact not_le.1 hlow
    have ht1 : -2 ^ 31 ≤ trunc q := by
      have := h q rfl hq1
      rw [kPrimIntMin] at this
      exact this
    have ht2 : trunc q < 2 ^ 31 :=
      (trunc_mem_Ico (a := -2 ^ 63) (b := 2 ^ 31) (by push_cast; exact (not_le.1 hlow).le)
        (by push_cast; linarith [not_le.1 hhigh]) (by norm_num)).2
    rw [if_neg hhigh, if_neg hlow, toIntegral?_num, if_pos ⟨ht1, ht2⟩,
      javaFloatToIntegral_of_mem 31 ht1 ht2]
    rfl

/-- Every fold of a floating constant to an integral type is Java's conversion, except a double
to `int` above `kPrimLongMin` whose truncation is below `kPrimIntMin`: that one does not fold. -/
theorem fold_float_to_integral_java (value : FloatVal) :
    tryStaticEvaluation (.float value) .int32 =
        some (some (.int (javaFloatToIntegral 32 value))) ∧
    tryStaticEvaluation (.float value) .int64 =
        some (some (.long (javaFloatToIntegral 64 value))) ∧
    tryStaticEvaluation (.double value) .int64 =
        some (some (.long (javaFloatToIntegral 64 value))) ∧
    (tryStaticEvaluation (.double value) .int32 = none ↔
      ∃ q, value = .num q ∧ (kPrimLongMin : ℚ) < q ∧ trunc q < kPrimIntMin) ∧
    ((∀ q, value = .num q → (kPrimLongMin : ℚ) < q → kPrimIntMin ≤ trunc q) →
      tryStaticEvaluation (.double value) .int32 =
        some (some (.int (javaFloatToIntegral 32 value)))) := by
  obtain ⟨h32, h64, hd64⟩ := tryStaticEvaluation_floatToIntegral value
  refine ⟨h32, h64, hd64, ⟨fun hnone => ?_, ?_⟩, tryStaticEvaluation_double_int32 value⟩
  · by_contra hfit
    push Not at hfit
    rw [tryStaticEvaluation_double_int32 value hfit] at hnone
    exact Option.some_ne_none _ hnone
  · rintro ⟨q, rfl, hq1, hq2⟩
    exact tryStaticEvaluation_double_int32_of_lt hq1 hq2

/-- The double `-2^32` does not fold to an `int`: the chain casts it and its truncation does not
fit, where the runtime's conversion gives `INT32_MIN`. -/
theorem fold_double_to_int_out_of_range :
    tryStaticEvaluation (.double (.num (-2 ^ 32))) .int32 = none ∧
      artFloatToIntegral 32 binary64 (.num (-2 ^ 32)) = some (BitVec.ofInt 32 kPrimIntMin) := by
  refine ⟨tryStaticEvaluation_double_int32_of_lt (by norm_num [kPrimLongMin])
    (by norm_num [trunc, kPrimIntMin]), ?_⟩
  rw [(artFloatToIntegral_java _).2.2.1, javaFloatToIntegral_of_le_neg 31 (by norm_num)]
  rfl

end Fold

end TypeConversion

end Art
