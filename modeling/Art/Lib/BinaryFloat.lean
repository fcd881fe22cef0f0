import Mathlib

/-!
# Binary floating-point values

A value of a binary format is NaN, an infinity or a finite number, kept as its rational value; the
sign of a zero is not kept.  `Format.round` is the conversion of a rational into the format, to
nearest with ties to even, overflowing to an infinity.  Comparisons with a NaN are false, and the
conversion to a `w`-bit integer truncates toward zero and is defined only when the result fits.
-/

namespace BinaryFloat

/-- A format with `prec` significand bits and largest exponent `emax`. -/
structure Format where
  prec : Nat
  emax : Int

/-- IEEE 754 `binary32`, C++ `float`. -/
def binary32 : Format := ⟨24, 127⟩

/-- IEEE 754 `binary64`, C++ `double`. -/
def binary64 : Format := ⟨53, 1023⟩

inductive FloatVal where
  | nan
  | inf (neg : Bool)
  | num (q : ℚ)
  deriving DecidableEq

/-- Rounding to an integer, ties to even. -/
def roundHalfEven (m : ℚ) : Int :=
  let f := ⌊m⌋
  if m - f < 1 / 2 then f
  else if 1 / 2 < m - f then f + 1
  else if f % 2 = 0 then f else f + 1

/-- The largest finite value of the format. -/
def Format.maxFinite (f : Format) : ℚ := (2 ^ f.prec - 1) * (2 : ℚ) ^ (f.emax - f.prec + 1)

/-- The value of the format nearest to `q`, ties to even; beyond the largest finite value, an
infinity.  The last significand bit has the exponent of `q`'s leading bit less `prec - 1`, or that
of the smallest normal number for a subnormal result. -/
def Format.round (f : Format) (q : ℚ) : FloatVal :=
  if q = 0 then .num 0 else
  let a := |q|
  let e := max (Int.log 2 a) (1 - f.emax) - (f.prec - 1)
  let v : ℚ := roundHalfEven (a / (2 : ℚ) ^ e) * (2 : ℚ) ^ e
  if f.maxFinite < v then .inf (decide (q < 0)) else .num (if q < 0 then -v else v)

/-- The exponent of a positive rational's leading bit, from a binade that holds it. -/
theorem log_two_eq {r : ℚ} (k : ℤ) (h1 : (2 : ℚ) ^ k ≤ r) (h2 : r < (2 : ℚ) ^ (k + 1)) :
    Int.log 2 r = k := by
  have hr : 0 < r := lt_of_lt_of_le (zpow_pos (by norm_num) k) h1
  have hle : k ≤ Int.log 2 r :=
    (Int.zpow_le_iff_le_log (by norm_num) hr).1 (by exact_mod_cast h1)
  have hlt : Int.log 2 r < k + 1 :=
    (Int.lt_zpow_iff_log_lt (by norm_num) hr).1 (by exact_mod_cast h2)
  omega

/-- Rounding a positive value of a normal binade `[2^k, 2^(k+1))`: to a multiple of the binade's
last significand bit, here `v`. -/
theorem Format.round_of_pos (f : Format) {q v : ℚ} (k : ℤ) (h1 : (2 : ℚ) ^ k ≤ q)
    (h2 : q < (2 : ℚ) ^ (k + 1)) (hnorm : 1 - f.emax ≤ k)
    (hv : roundHalfEven (q / (2 : ℚ) ^ (k - (f.prec - 1))) * (2 : ℚ) ^ (k - (f.prec - 1)) = v)
    (hmax : v ≤ f.maxFinite) : f.round q = .num v := by
  have hq : 0 < q := lt_of_lt_of_le (zpow_pos (by norm_num) k) h1
  simp only [Format.round, if_neg hq.ne', abs_of_pos hq, log_two_eq k h1 h2, max_eq_left hnorm,
    hv, if_neg (not_lt.2 hmax), not_lt.2 hq.le, if_false]

/-- Rounding a negative value whose magnitude lies in a normal binade. -/
theorem Format.round_of_neg (f : Format) {q v : ℚ} (k : ℤ) (h1 : (2 : ℚ) ^ k ≤ -q)
    (h2 : -q < (2 : ℚ) ^ (k + 1)) (hnorm : 1 - f.emax ≤ k)
    (hv : roundHalfEven (-q / (2 : ℚ) ^ (k - (f.prec - 1))) * (2 : ℚ) ^ (k - (f.prec - 1)) = v)
    (hmax : v ≤ f.maxFinite) : f.round q = .num (-v) := by
  have hq : q < 0 := neg_pos.1 (lt_of_lt_of_le (zpow_pos (by norm_num) k) h1)
  simp only [Format.round, if_neg hq.ne, abs_of_neg hq, log_two_eq k h1 h2, max_eq_left hnorm,
    hv, if_neg (not_lt.2 hmax), hq, if_true]

/-- Every power of two below `2 ^ emax` is below the largest finite value. -/
theorem Format.two_pow_le_maxFinite (f : Format) (hp : 1 ≤ f.prec) (k : ℕ)
    (hk : (k : ℤ) ≤ f.emax) : (2 : ℚ) ^ k ≤ f.maxFinite := by
  unfold Format.maxFinite
  -- `2 ^ (prec - 1) ≤ 2 ^ prec - 1`, so the largest value is at least `2 ^ emax`
  have hhalf : (2 : ℚ) ^ ((f.prec : ℤ) - 1) ≤ 2 ^ f.prec - 1 := by
    have hsplit : (2 : ℚ) ^ f.prec = 2 * 2 ^ ((f.prec : ℤ) - 1) := by
      rw [← zpow_natCast, ← zpow_one_add₀ two_ne_zero]
      ring_nf
    have hone : (1 : ℚ) ≤ 2 ^ ((f.prec : ℤ) - 1) := one_le_zpow₀ (by norm_num) (by omega)
    linarith
  calc (2 : ℚ) ^ k = 2 ^ (k : ℤ) := (zpow_natCast 2 k).symm
    _ ≤ 2 ^ f.emax := zpow_le_zpow_right₀ (by norm_num) hk
    _ = 2 ^ ((f.prec : ℤ) - 1) * 2 ^ (f.emax - f.prec + 1) := by
      rw [← zpow_add₀ two_ne_zero]
      ring_nf
    _ ≤ (2 ^ f.prec - 1) * 2 ^ (f.emax - f.prec + 1) :=
      mul_le_mul_of_nonneg_right hhalf (zpow_nonneg (by norm_num) _)

namespace FloatVal

/-- `x <= y`. -/
def le : FloatVal → FloatVal → Bool
  | nan, _ => false
  | _, nan => false
  | inf true, _ => true
  | _, inf false => true
  | inf false, _ => false
  | _, inf true => false
  | num a, num b => decide (a ≤ b)

/-- `x < y`. -/
def lt (x y : FloatVal) : Bool := x.le y && !y.le x

/-- `x >= y`. -/
def ge (x y : FloatVal) : Bool := y.le x

@[simp] theorem le_num_num (a b : ℚ) : (num a).le (num b) = decide (a ≤ b) := rfl

@[simp] theorem nan_le (y : FloatVal) : nan.le y = false := rfl

@[simp] theorem le_nan (x : FloatVal) : x.le nan = false := by
  cases x <;> rfl

/-- `std::isnan`. -/
def isNan : FloatVal → Bool
  | nan => true
  | _ => false

/-- Truncation toward zero. -/
def trunc (q : ℚ) : Int := if 0 ≤ q then ⌊q⌋ else ⌈q⌉

/-- `static_cast` to a signed `w`-bit integer: truncation toward zero, defined only for a finite
value whose truncation fits. -/
def toIntegral? (w : Nat) : FloatVal → Option (BitVec w)
  | num q =>
    if -2 ^ (w - 1) ≤ trunc q ∧ trunc q < 2 ^ (w - 1) then some (BitVec.ofInt w (trunc q))
    else none
  | _ => none

theorem toIntegral?_num (w : Nat) (q : ℚ) :
    (num q).toIntegral? w =
      if -2 ^ (w - 1) ≤ trunc q ∧ trunc q < 2 ^ (w - 1) then some (BitVec.ofInt w (trunc q))
      else none := rfl

/-- A value in `[a, b)`, with `b` positive, truncates into `[a, b)`. -/
theorem trunc_mem_Ico {q : ℚ} {a b : Int} (ha : (a : ℚ) ≤ q) (hb : q < b) (hb0 : 0 < b) :
    a ≤ trunc q ∧ trunc q < b := by
  unfold trunc
  split
  · exact ⟨Int.le_floor.2 ha, Int.cast_lt.1 (lt_of_le_of_lt (Int.floor_le q) hb)⟩
  · rename_i hq
    have hceil : ⌈q⌉ ≤ 0 := Int.ceil_le.2 (by push_cast; linarith)
    exact ⟨Int.cast_le.1 (le_trans ha (Int.le_ceil q)), by omega⟩

/-- A value at or above a non-negative integer truncates to at least it. -/
theorem le_trunc_of_le {q : ℚ} {b : Int} (hb : 0 ≤ b) (h : (b : ℚ) ≤ q) : b ≤ trunc q := by
  have hq : 0 ≤ q := le_trans (by exact_mod_cast hb) h
  simp only [trunc, if_pos hq]
  exact Int.le_floor.2 h

/-- A value at or below a non-positive integer truncates to at most it. -/
theorem trunc_le_of_le {q : ℚ} {a : Int} (ha : a ≤ 0) (h : q ≤ (a : ℚ)) : trunc q ≤ a := by
  unfold trunc
  split
  · rename_i hq
    have hq0 : q = 0 := le_antisymm (le_trans h (by exact_mod_cast ha)) hq
    have ha0 : a = 0 := by
      have : (a : ℚ) = 0 := le_antisymm (by exact_mod_cast ha) (hq0 ▸ h)
      exact_mod_cast this
    simp [hq0, ha0]
  · exact Int.ceil_le.2 h

end FloatVal

end BinaryFloat
