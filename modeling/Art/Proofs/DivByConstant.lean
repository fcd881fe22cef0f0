import Mathlib
import Art.Compiler.CodeGenerator
import Art.Lib.MagicDivision

/-!
# Division by a constant is exact

`CalculateMagicAndShiftForDivRem` computes Granlund and Montgomery's multiplier without wrapping
a `uint64_t`: every pass of its loop holds the exact quotients and remainders of `2 ^ p`
(`calculateMagicLoop_eq`), so it stops at the least `p` from the width on with
`ExactAt |d| abs_nc p`, no later than `2 * w - 2`, with a multiplier below `2 ^ w`.  The ARM64
sequence then computes the quotient rounded towards zero, and the remainder with the sign of the
dividend, for every dividend of the register width.
-/

namespace Art

open MagicDivision

/-! ### The loop computes exact quotients -/

section Loop

/-- The quotient and the remainder of `x` by `b` as the loop holds them. -/
def divModPair (x b : ℕ) : BitVec 64 × BitVec 64 :=
  (BitVec.ofNat 64 (x / b), BitVec.ofNat 64 (x % b))

/-- The loop's state at `p`: the exact quotients and remainders of `2 ^ p` by `nc` and `a`. -/
def magicStateAt (a nc p : ℕ) : MagicState := ⟨p, divModPair (2 ^ p) nc, divModPair (2 ^ p) a⟩

theorem two_mul_div_mod {x b : ℕ} (hb : 0 < b) :
    (2 * x / b, 2 * x % b) =
      if b ≤ 2 * (x % b) then (2 * (x / b) + 1, 2 * (x % b) - b) else (2 * (x / b), 2 * (x % b)) := by
  have hr := Nat.mod_lt x hb
  have hx : 2 * x = b * (2 * (x / b)) + 2 * (x % b) := by
    have := Nat.div_add_mod x b
    rw [← Nat.mul_assoc, Nat.mul_comm b 2, Nat.mul_assoc]
    omega
  rw [hx, Nat.mul_add_div hb, Nat.mul_add_mod]
  split_ifs with h
  · -- the doubled remainder reaches the divisor once
    have hq : 2 * (x % b) / b = 1 := Nat.div_eq_of_lt_le (by omega) (by omega)
    rw [hq, Nat.mod_eq_sub_mod h, Nat.mod_eq_of_lt (by omega)]
  · have hlt : 2 * (x % b) < b := by omega
    rw [Nat.div_eq_of_lt hlt, Nat.mod_eq_of_lt hlt, Nat.add_zero]

/-- One doubling in `uint64_t` is exact while the doubled quotient fits. -/
theorem doubleQuotient_divModPair {b x : ℕ} (hb : 0 < b) (hb64 : b ≤ 2 ^ 63)
    (hx : 2 * x / b < 2 ^ 64) :
    doubleQuotient (BitVec.ofNat 64 b) (divModPair x b) = divModPair (2 * x) b := by
  have hr := Nat.mod_lt x hb
  have hsplit := two_mul_div_mod (x := x) hb
  have hq : 2 * (x / b) < 2 ^ 64 := by
    have : 2 * (x / b) ≤ 2 * x / b := by
      split_ifs at hsplit <;> simp only [Prod.mk.injEq] at hsplit <;> omega
    omega
  have hmul : ∀ y, 2 * y < 2 ^ 64 → 2 * BitVec.ofNat 64 y = BitVec.ofNat 64 (2 * y) := fun y hy => by
    apply BitVec.eq_of_toNat_eq
    have h2 : (2 : BitVec 64).toNat = 2 := rfl
    rw [BitVec.toNat_mul, h2, BitVec.toNat_ofNat, BitVec.toNat_ofNat,
      Nat.mod_eq_of_lt (by omega : y < 2 ^ 64), Nat.mod_eq_of_lt hy]
  unfold doubleQuotient divModPair
  dsimp only
  rw [hmul _ hq, hmul _ (by omega)]
  have hcmp : BitVec.ofNat 64 b ≤ BitVec.ofNat 64 (2 * (x % b)) ↔ b ≤ 2 * (x % b) := by
    rw [BitVec.le_def, BitVec.toNat_ofNat, BitVec.toNat_ofNat, Nat.mod_eq_of_lt (by omega),
      Nat.mod_eq_of_lt (by omega)]
  by_cases h : b ≤ 2 * (x % b)
  · rw [if_pos (hcmp.2 h), if_pos h] at *
    simp only [Prod.mk.injEq] at hsplit
    rw [hsplit.1, hsplit.2, BitVec.ofNat_add]
    congr 1
    apply BitVec.eq_of_toNat_eq
    have h1 : b % 2 ^ 64 = b := Nat.mod_eq_of_lt (by omega)
    have h2 : 2 * (x % b) % 2 ^ 64 = 2 * (x % b) := Nat.mod_eq_of_lt (by omega)
    have h3 : (2 * (x % b) - b) % 2 ^ 64 = 2 * (x % b) - b := Nat.mod_eq_of_lt (by omega)
    rw [BitVec.toNat_sub, BitVec.toNat_ofNat, BitVec.toNat_ofNat, BitVec.toNat_ofNat, h1, h2, h3]
    omega
  · rw [if_neg (fun h' => h (hcmp.1 h')), if_neg h] at *
    simp only [Prod.mk.injEq] at hsplit
    rw [hsplit.1, hsplit.2]

/-- The loop's test at the exact state: `2 ^ p` is at most `nc * (a - 2 ^ p % a)`. -/
theorem loopTest_iff {a nc x : ℕ} (ha : 0 < a) (ha64 : a ≤ 2 ^ 63) (hnc : 0 < nc)
    (hnc64 : nc ≤ 2 ^ 63) (hx : x / nc < 2 ^ 64) :
    ((divModPair x nc).1 < BitVec.ofNat 64 a - (divModPair x a).2 ∨
        ((divModPair x nc).1 = BitVec.ofNat 64 a - (divModPair x a).2 ∧ (divModPair x nc).2 = 0)) ↔
      x ≤ nc * (a - x % a) := by
  have hr := Nat.mod_lt x ha
  have hr1 := Nat.mod_lt x hnc
  have hdelta : (BitVec.ofNat 64 a - BitVec.ofNat 64 (x % a)).toNat = a - x % a := by
    have h1 : a % 2 ^ 64 = a := Nat.mod_eq_of_lt (by omega)
    have h2 : x % a % 2 ^ 64 = x % a := Nat.mod_eq_of_lt (by omega)
    rw [BitVec.toNat_sub, BitVec.toNat_ofNat, BitVec.toNat_ofNat, h1, h2]
    omega
  have hq : (BitVec.ofNat 64 (x / nc)).toNat = x / nc := by
    rw [BitVec.toNat_ofNat, Nat.mod_eq_of_lt hx]
  have hr' : (BitVec.ofNat 64 (x % nc)).toNat = x % nc := by
    rw [BitVec.toNat_ofNat, Nat.mod_eq_of_lt (by omega)]
  have h0 : (0 : BitVec 64).toNat = 0 := rfl
  unfold divModPair
  dsimp only
  rw [BitVec.lt_def, BitVec.toNat_eq, BitVec.toNat_eq, hdelta, hq, hr', h0]
  exact div_lt_or_eq_iff_le hnc

section

variable {a nc : ℕ} (ha : 0 < a) (ha64 : a ≤ 2 ^ 63) (hnc : 0 < nc) (hnc64 : nc ≤ 2 ^ 63)
include ha ha64 hnc hnc64

/-- One pass from the exact state at `p`: the exact state at `p + 1`, where the loop stops if
`ExactAt a nc (p + 1)`. -/
theorem calculateMagicLoop_succ {p : ℕ} (h1 : 2 ^ (p + 1) / nc < 2 ^ 64)
    (h2 : 2 ^ (p + 1) / a < 2 ^ 64) (fuel : ℕ) :
    calculateMagicLoop (BitVec.ofNat 64 a) (BitVec.ofNat 64 nc) (fuel + 1) (magicStateAt a nc p) =
      if ExactAt a nc (p + 1) then some (magicStateAt a nc (p + 1))
      else calculateMagicLoop (BitVec.ofNat 64 a) (BitVec.ofNat 64 nc) fuel
        (magicStateAt a nc (p + 1)) := by
  have hpow : 2 * 2 ^ p = 2 ^ (p + 1) := (Nat.pow_succ' ..).symm
  rw [calculateMagicLoop]
  dsimp only [magicStateAt]
  simp only [doubleQuotient_divModPair hnc hnc64 (hpow ▸ h1),
    doubleQuotient_divModPair ha ha64 (hpow ▸ h2), hpow]
  have htest := loopTest_iff ha ha64 hnc hnc64 h1
  by_cases hE : ExactAt a nc (p + 1)
  · rw [if_neg (fun h => Nat.not_le_of_lt hE (htest.1 h)), if_pos hE]
  · rw [if_pos (htest.2 (Nat.le_of_not_lt hE)), if_neg hE]

/-- The loop from the exact state at `p` stops at the first `q > p` with `ExactAt a nc q`, when
that is within the fuel and its quotients fit in a `uint64_t`. -/
theorem calculateMagicLoop_eq {q : ℕ} (hq : ExactAt a nc q) (h1 : 2 ^ q / nc < 2 ^ 64)
    (h2 : 2 ^ q / a < 2 ^ 64) (fuel p : ℕ) (hpq : p < q) (hfuel : q ≤ p + fuel)
    (hmin : ∀ r, p < r → r < q → ¬ExactAt a nc r) :
    calculateMagicLoop (BitVec.ofNat 64 a) (BitVec.ofNat 64 nc) fuel (magicStateAt a nc p) =
      some (magicStateAt a nc q) := by
  -- by induction on the fuel: each pass moves the exact state one step towards `q`
  induction fuel generalizing p with
  | zero => omega
  | succ fuel ih =>
    have hle : 2 ^ (p + 1) ≤ 2 ^ q := Nat.pow_le_pow_right (by decide) hpq
    rw [calculateMagicLoop_succ ha ha64 hnc hnc64
      (Nat.lt_of_le_of_lt (Nat.div_le_div_right hle) h1)
      (Nat.lt_of_le_of_lt (Nat.div_le_div_right hle) h2)]
    rcases Nat.eq_or_lt_of_le (hpq : p + 1 ≤ q) with heq | hlt
    · obtain rfl : p + 1 = q := heq
      rw [if_pos hq]
    · rw [if_neg (hmin (p + 1) (by omega) hlt)]
      exact ih (p + 1) hlt (by omega) fun r hr hrq => hmin r (by omega) hrq

end

end Loop

/-! ### The ARM64 sequence -/

section Sequence

variable {w : ℕ}

/-- The multiplier with the divisor's sign. -/
def signedMultiplier (d : ℤ) (m : ℕ) : ℤ := if 0 < d then m else -m

theorem two_pow_eq_two_mul (hw : 0 < w) : (2 : ℤ) ^ w = 2 * 2 ^ (w - 1) := by
  rw [← pow_succ']
  congr 1
  omega

/-- A value in the signed range of a `w`-bit register is its own `bmod`. -/
theorem bmod_two_pow_eq (hw : 0 < w) {x : ℤ} (hlo : -2 ^ (w - 1) ≤ x) (hhi : x < 2 ^ (w - 1)) :
    x.bmod (2 ^ w) = x := by
  have h := two_pow_eq_two_mul hw
  apply Int.bmod_eq_of_le <;> push_cast <;> omega

theorem ediv_two_pow_bounds (hw : 0 < w) {x : ℤ} (hlo : -(2 * 2 ^ (w - 1) * 2 ^ (w - 1)) ≤ x)
    (hhi : x < 2 * 2 ^ (w - 1) * 2 ^ (w - 1)) :
    -2 ^ (w - 1) ≤ x / 2 ^ w ∧ x / 2 ^ w < 2 ^ (w - 1) := by
  have h := two_pow_eq_two_mul hw
  have hpos : (0 : ℤ) < 2 ^ w := by positivity
  constructor
  · rw [Int.le_ediv_iff_mul_le hpos, h]
    linarith
  · rw [Int.ediv_lt_iff_lt_mul hpos, h]
    linarith

/-- The high word of the product with the signed multiplier lies in the signed range. -/
theorem mul_signedMultiplier_ediv_bounds (hw : 0 < w) (n : BitVec w) (d : ℤ) {m : ℕ}
    (hmw : m < 2 ^ w) :
    -2 ^ (w - 1) ≤ n.toInt * signedMultiplier d m / 2 ^ w ∧
      n.toInt * signedMultiplier d m / 2 ^ w < 2 ^ (w - 1) := by
  have h := two_pow_eq_two_mul hw
  have hP : (0 : ℤ) < 2 ^ (w - 1) := by positivity
  have hm : (m : ℤ) < 2 * 2 ^ (w - 1) := by
    rw [← h]
    exact_mod_cast hmw
  have hm0 : (0 : ℤ) ≤ m := Int.natCast_nonneg m
  have hn1 := BitVec.le_toInt n
  have hn2 := BitVec.toInt_lt (x := n)
  apply ediv_two_pow_bounds hw <;> unfold signedMultiplier <;> split_ifs <;> nlinarith

/-- The multiple of the dividend that the correction adds to the high word. -/
def correction (magic imm : ℤ) : ℤ :=
  if needToAddDividend magic imm then 1 else if needToSubDividend magic imm then -1 else 0

theorem correctHighWord_ofInt (x : ℤ) (y : BitVec w) (M d : ℤ) :
    correctHighWord (BitVec.ofInt w x) y M d = BitVec.ofInt w (x + y.toInt * correction M d) := by
  unfold correctHighWord correction
  split_ifs <;> simp [BitVec.ofInt_add, BitVec.ofInt_neg, BitVec.sub_eq_add_neg]

/-- The magic number is the signed multiplier cut to `w` bits, and the correction gives back
what the cut took: `2 ^ w` when the dividend is added, `-2 ^ w` when it is subtracted. -/
theorem signedMultiplier_eq_add_correction (hw : 0 < w) {d : ℤ} (hd : d ≠ 0) {m : ℕ}
    (hmw : m < 2 ^ w) :
    signedMultiplier d m = (signedMultiplier d m).bmod (2 ^ w) +
      correction ((signedMultiplier d m).bmod (2 ^ w)) d * 2 ^ w := by
  have h := two_pow_eq_two_mul hw
  have hmw' : (m : ℤ) < 2 ^ w := by exact_mod_cast hmw
  unfold correction
  by_cases hd0 : 0 < d
  · have hσ : signedMultiplier d m = m := if_pos hd0
    have hsub : needToSubDividend ((signedMultiplier d m).bmod (2 ^ w)) d = false := by
      simp [needToSubDividend]
      omega
    rw [hsub, if_neg Bool.false_ne_true]
    by_cases hmP : (m : ℤ) < 2 ^ (w - 1)
    · have hM : (signedMultiplier d m).bmod (2 ^ w) = m := by
        rw [hσ]
        exact bmod_two_pow_eq hw (by omega) hmP
      have hadd : needToAddDividend ((signedMultiplier d m).bmod (2 ^ w)) d = false := by
        rw [hM]
        simp [needToAddDividend]
      rw [hadd, if_neg Bool.false_ne_true, hM, hσ, Int.zero_mul, Int.add_zero]
    · have hM : (signedMultiplier d m).bmod (2 ^ w) = m - 2 ^ w := by
        rw [hσ, ← Int.sub_mul_bmod_self_right _ 1 (2 ^ w), Int.one_mul]
        push_cast
        exact bmod_two_pow_eq hw (by omega) (by omega)
      have hadd : needToAddDividend ((signedMultiplier d m).bmod (2 ^ w)) d = true := by
        rw [hM]
        simp [needToAddDividend, hd0]
        omega
      rw [hadd, if_pos rfl, hM, hσ, Int.one_mul, Int.sub_add_cancel]
  · have hσ : signedMultiplier d m = -m := if_neg hd0
    have hadd : needToAddDividend ((signedMultiplier d m).bmod (2 ^ w)) d = false := by
      simp [needToAddDividend]
      omega
    rw [hadd, if_neg Bool.false_ne_true]
    by_cases hmP : (m : ℤ) ≤ 2 ^ (w - 1)
    · have hM : (signedMultiplier d m).bmod (2 ^ w) = -m := by
        rw [hσ]
        exact bmod_two_pow_eq hw (by omega) (by omega)
      have hsub : needToSubDividend ((signedMultiplier d m).bmod (2 ^ w)) d = false := by
        rw [hM]
        simp [needToSubDividend]
      rw [hsub, if_neg Bool.false_ne_true, hM, hσ, Int.zero_mul, Int.add_zero]
    · have hM : (signedMultiplier d m).bmod (2 ^ w) = -m + 2 ^ w := by
        rw [hσ, ← Int.sub_mul_bmod_self_right _ (-1) (2 ^ w), Int.neg_one_mul, Int.sub_neg]
        push_cast
        exact bmod_two_pow_eq hw (by omega) (by omega)
      have hsub : needToSubDividend ((signedMultiplier d m).bmod (2 ^ w)) d = true := by
        rw [hM]
        simp [needToSubDividend]
        omega
      rw [hsub, if_pos rfl, hM, hσ, Int.neg_one_mul, Int.add_neg_cancel_right]

/-- `Smulh` and the correction give the floor of the product with the signed multiplier. -/
theorem toInt_correctHighWord (hw : 0 < w) (n : BitVec w) {d : ℤ} (hd : d ≠ 0) {m : ℕ}
    (hmw : m < 2 ^ w) :
    (correctHighWord (smulh n (BitVec.ofInt w ((signedMultiplier d m).bmod (2 ^ w)))) n
        ((signedMultiplier d m).bmod (2 ^ w)) d).toInt =
      n.toInt * signedMultiplier d m / 2 ^ w := by
  obtain ⟨hlo, hhi⟩ := mul_signedMultiplier_ediv_bounds hw n d hmw
  have hσ := signedMultiplier_eq_add_correction hw hd hmw
  have hne : (2 : ℤ) ^ w ≠ 0 := by positivity
  rw [smulh, BitVec.toInt_ofInt, Int.bmod_bmod, correctHighWord_ofInt, BitVec.toInt_ofInt,
    ← Int.add_mul_ediv_right _ _ hne]
  generalize (signedMultiplier d m).bmod (2 ^ w) = M at hσ ⊢
  rw [show n.toInt * M + n.toInt * correction M d * 2 ^ w = n.toInt * signedMultiplier d m by
    rw [hσ]; ring]
  exact bmod_two_pow_eq hw hlo hhi

theorem toNat_of_toInt_eq {x : BitVec w} {k : ℕ} (h : x.toInt = k) : x.toNat = k := by
  rw [BitVec.toInt_eq_toNat_cond] at h
  split_ifs at h with hlt
  · exact_mod_cast h
  · -- the other reading is negative
    have := x.isLt
    omega

theorem toInt_add_one {x : BitVec w} (hw : 1 < w) (hx : x.toInt < 0) : (x + 1).toInt = x.toInt + 1 := by
  have hone : (1 : BitVec w).toInt = 1 := BitVec.toInt_one hw
  have hlo := BitVec.le_toInt x
  have hP : (0 : ℤ) < 2 ^ (w - 1) := by positivity
  rw [BitVec.toInt_add, hone]
  exact bmod_two_pow_eq (by omega) (by omega) (by omega)

/-- `x >>> (w - 1)` is the sign bit. -/
theorem ushiftRight_sub_one (hw : 0 < w) (x : BitVec w) :
    x >>> (w - 1) = if x.toInt < 0 then 1 else 0 := by
  have hmsb := BitVec.msb_eq_decide x
  rw [BitVec.msb_eq_toInt] at hmsb
  have hlt := x.isLt
  have h2 : 2 ^ w = 2 * 2 ^ (w - 1) := by
    rw [← Nat.pow_succ']
    congr 1
    omega
  apply BitVec.eq_of_toNat_eq
  rw [BitVec.toNat_ushiftRight, Nat.shiftRight_eq_div_pow]
  by_cases hneg : x.toInt < 0
  · have h1 : (1 : BitVec w).toNat = 1 := BitVec.toNat_one hw
    rw [if_pos hneg, h1]
    have : 2 ^ (w - 1) ≤ x.toNat := of_decide_eq_true (hmsb.symm.trans (decide_eq_true hneg))
    exact Nat.div_eq_of_lt_le (by omega) (by omega)
  · have h0 : (0 : BitVec w).toNat = 0 := BitVec.toNat_zero
    rw [if_neg hneg, h0]
    have : ¬2 ^ (w - 1) ≤ x.toNat := of_decide_eq_false (hmsb.symm.trans (decide_eq_false hneg))
    exact Nat.div_eq_of_lt (by omega)

/-- `GenerateIncrementNegativeByOne` adds one to a negative value with either instruction, when
the flag `Cinc` tests is the value's sign. -/
theorem toInt_generateIncrementNegativeByOne (hw : 1 < w) (x : BitVec w) (useCondInc : Bool)
    {negative : Bool} (hneg : negative = decide (x.toInt < 0)) :
    (generateIncrementNegativeByOne x useCondInc negative).toInt =
      if x.toInt < 0 then x.toInt + 1 else x.toInt := by
  unfold generateIncrementNegativeByOne
  by_cases hx : x.toInt < 0
  · have hnegt : negative = true := hneg.trans (decide_eq_true hx)
    rw [if_pos hx, ushiftRight_sub_one (by omega), if_pos hx, hnegt, if_pos rfl]
    split_ifs <;> exact toInt_add_one hw hx
  · have hnegf : negative = false := hneg.trans (decide_eq_false hx)
    have h0 : x + 0 = x := BitVec.add_zero x
    rw [if_neg hx, ushiftRight_sub_one (by omega), if_neg hx, hnegf, if_neg Bool.false_ne_true, h0]
    split_ifs <;> rfl

theorem ediv_two_pow_neg_iff {x : ℤ} (k : ℕ) : x / 2 ^ k < 0 ↔ x < 0 := by
  rw [Int.ediv_lt_iff_lt_mul (by positivity), Int.zero_mul]

/-- The signed sequence computes the rounded quotient of the dividend, negated for a negative
divisor, by the multiplier and `2 ^ (w + shift)`. -/
theorem toInt_generateInt64DivRemWithAnyConstant_fst (hw : 1 < w) (n : BitVec w) {d : ℤ}
    (hd : d ≠ 0) {m : ℕ} (hmw : m < 2 ^ w) (s : ℕ) :
    (generateInt64DivRemWithAnyConstant n d ((signedMultiplier d m).bmod (2 ^ w)) s).1.toInt =
      roundedQuotient m (2 ^ (w + s)) (if 0 < d then n.toInt else -n.toInt) := by
  have hT := toInt_correctHighWord (by omega) n hd hmw
  have hX : (if 0 < d then n.toInt else -n.toInt) * m = n.toInt * signedMultiplier d m := by
    unfold signedMultiplier
    split_ifs <;> ring
  unfold generateInt64DivRemWithAnyConstant
  dsimp only
  generalize correctHighWord _ _ _ _ = T at hT ⊢
  have hS : (if s ≠ 0 then T.sshiftRight s else T).toInt =
      n.toInt * signedMultiplier d m / 2 ^ (w + s) := by
    rw [Int.pow_add, ← Int.ediv_ediv_of_nonneg (by positivity), ← hT]
    split_ifs with hs
    · rw [BitVec.toInt_sshiftRight, Int.shiftRight_eq_div_pow]
      push_cast
      rfl
    · rw [Decidable.not_not.1 hs, Int.pow_zero, Int.ediv_one]
  rw [toInt_generateIncrementNegativeByOne hw _ _ (by
    rw [BitVec.msb_eq_toInt, hS, hT]
    exact decide_eq_decide.2 ((ediv_two_pow_neg_iff w).trans (ediv_two_pow_neg_iff (w + s)).symm)),
    hS,
    roundedQuotient, hX]
  push_cast
  rfl

theorem toInt_generateResultRemWithAnyConstant (hw : 0 < w) (n q : BitVec w) {d : ℤ}
    (hd : d ≠ 0) (hdw : d.natAbs < 2 ^ (w - 1)) (hq : q.toInt = n.toInt.tdiv d) :
    (generateResultRemWithAnyConstant n q d).toInt = n.toInt.tmod d := by
  have hdw' : (d.natAbs : ℤ) < 2 ^ (w - 1) := by exact_mod_cast hdw
  have hlt : (n.toInt.tmod d).natAbs < d.natAbs := by
    rw [Int.natAbs_tmod]
    exact Nat.mod_lt _ (Int.natAbs_pos.2 hd)
  have hd' : d.bmod (2 ^ w) = d := bmod_two_pow_eq hw (by omega) (by omega)
  unfold generateResultRemWithAnyConstant
  rw [BitVec.toInt_sub, BitVec.toInt_mul, BitVec.toInt_ofInt, hd', Int.sub_bmod_bmod, hq,
    show n.toInt - n.toInt.tdiv d * d = n.toInt.tmod d by rw [Int.tmod_def]; ring]
  exact bmod_two_pow_eq hw (by omega) (by omega)

/-- For a non-negative dividend the unsigned sequence is the multiplier's quotient by
`2 ^ (w + shift)`. -/
theorem toNat_generateUnsignedDivCode (hw : 0 < w) (n : BitVec w) (hn : 0 ≤ n.toInt) {m : ℕ}
    (hmw : m < 2 ^ w) (s : ℕ) :
    (generateUnsignedDivCode n ((m : ℤ).bmod (2 ^ w)) s).toNat = n.toNat * m / 2 ^ (w + s) := by
  have hσ : signedMultiplier 1 m = m := if_pos Int.one_pos
  have hT := toInt_correctHighWord hw n Int.one_ne_zero hmw
  rw [hσ] at hT
  have hn' : n.toInt = n.toNat := (BitVec.toInt_eq_toNat_of_msb (by
    rw [BitVec.msb_eq_toInt]
    exact decide_eq_false (by omega)))
  have hT' := toNat_of_toInt_eq (hT.trans (by rw [hn']; push_cast; rfl :
    n.toInt * m / 2 ^ w = ((n.toNat * m / 2 ^ w : ℕ) : ℤ)))
  have hcorrect : ∀ t : BitVec w, correctHighWord t n ((m : ℤ).bmod (2 ^ w)) 1 =
      if (m : ℤ).bmod (2 ^ w) < 0 then t + n else t := fun t => by
    simp [correctHighWord, needToAddDividend, needToSubDividend]
  unfold generateUnsignedDivCode
  split_ifs with h1 h2
  · -- a positive magic number and no shift: the high word itself
    have hadd : ¬(m : ℤ).bmod (2 ^ w) < 0 := by omega
    rw [hcorrect, if_neg hadd] at hT'
    rw [hT', h1.2, Nat.add_zero]
  · rw [hcorrect, if_pos h2] at hT'
    rw [BitVec.toNat_ushiftRight, hT', Nat.shiftRight_eq_div_pow, Nat.div_div_eq_div_mul,
      Nat.pow_add]
  · rw [hcorrect, if_neg h2] at hT'
    rw [BitVec.toNat_ushiftRight, hT', Nat.shiftRight_eq_div_pow, Nat.div_div_eq_div_mul,
      Nat.pow_add]

/-! The int32 sequence multiplies into a 64-bit register and makes the correction in its high
half, so that no bit of the product is lost. -/

theorem toInt_setWidth_shiftLeft_32 (n : BitVec 32) :
    (n.setWidth 64 <<< 32).toInt = n.toInt * 2 ^ 32 := by
  have hn1 : -2 ^ 31 ≤ n.toInt := BitVec.le_toInt n
  have hn2 : n.toInt < 2 ^ 31 := BitVec.toInt_lt
  have hlt := n.isLt
  have h : n.setWidth 64 <<< 32 = BitVec.ofInt 64 (n.toInt * 2 ^ 32) := by
    apply BitVec.eq_of_toNat_eq
    rw [BitVec.toNat_ofInt, BitVec.toNat_shiftLeft, BitVec.toNat_setWidth, Nat.shiftLeft_eq,
      BitVec.toInt_eq_toNat_cond]
    split_ifs <;> omega
  rw [h, BitVec.toInt_ofInt]
  exact bmod_two_pow_eq (by decide) (by omega) (by omega)

/-- `Smull` and the correction in the high half make the product of the dividend with the
signed multiplier, exactly. -/
theorem correctHighWord_int32 (n : BitVec 32) {d : ℤ} (hd : d ≠ 0) {m : ℕ} (hmw : m < 2 ^ 32) :
    correctHighWord
        (BitVec.ofInt 64 (n.toInt * (BitVec.ofInt 32 ((signedMultiplier d m).bmod (2 ^ 32))).toInt))
        (n.setWidth 64 <<< 32) ((signedMultiplier d m).bmod (2 ^ 32)) d =
      BitVec.ofInt 64 (n.toInt * signedMultiplier d m) := by
  have hσ := signedMultiplier_eq_add_correction (by decide) hd hmw
  rw [BitVec.toInt_ofInt, Int.bmod_bmod, correctHighWord_ofInt, toInt_setWidth_shiftLeft_32]
  generalize (signedMultiplier d m).bmod (2 ^ 32) = M at hσ ⊢
  rw [hσ]
  congr 1
  ring

/-- The product of a 32-bit dividend and a multiplier below `2 ^ 32` fits a 64-bit register. -/
theorem toInt_ofInt_mul_signedMultiplier (n : BitVec 32) (d : ℤ) {m : ℕ} (hmw : m < 2 ^ 32) :
    (BitVec.ofInt 64 (n.toInt * signedMultiplier d m)).toInt = n.toInt * signedMultiplier d m := by
  have hn1 : -2 ^ 31 ≤ n.toInt := BitVec.le_toInt n
  have hn2 : n.toInt < 2 ^ 31 := BitVec.toInt_lt
  have hm : (m : ℤ) < 2 ^ 32 := by exact_mod_cast hmw
  have hm0 : (0 : ℤ) ≤ m := Int.natCast_nonneg m
  rw [BitVec.toInt_ofInt]
  apply bmod_two_pow_eq (by decide)
  · show -2 ^ 63 ≤ _
    unfold signedMultiplier
    split_ifs <;> nlinarith
  · show _ < 2 ^ 63
    unfold signedMultiplier
    split_ifs <;> nlinarith

/-- The low word of a 64-bit register whose value fits `int32_t`. -/
theorem toInt_setWidth_32 (x : BitVec 64) (hlo : -2 ^ 31 ≤ x.toInt) (hhi : x.toInt < 2 ^ 31) :
    (x.setWidth 32).toInt = x.toInt := by
  have hmod : (x.toNat : ℤ).bmod (2 ^ 32) = x.toInt.bmod (2 ^ 32) := by
    rw [BitVec.toInt_eq_toNat_bmod, Int.bmod_bmod_of_dvd (by norm_num)]
  rw [BitVec.toInt_setWidth, hmod]
  exact bmod_two_pow_eq (by decide) hlo hhi

/-- A 64-bit value divided by `2 ^ (32 + shift)` fits `int32_t`. -/
theorem ediv_two_pow_32_bounds (x : BitVec 64) (s : ℕ) :
    -2 ^ 31 ≤ x.toInt / 2 ^ (32 + s) ∧ x.toInt / 2 ^ (32 + s) < 2 ^ 31 := by
  have hx1 : -2 ^ 63 ≤ x.toInt := BitVec.le_toInt x
  have hx2 : x.toInt < 2 ^ 63 := BitVec.toInt_lt
  have hs : (1 : ℤ) ≤ 2 ^ s := one_le_pow₀ (by norm_num)
  have hpow : (2 : ℤ) ^ (32 + s) = 2 ^ 32 * 2 ^ s := by rw [pow_add]
  have hpos : (0 : ℤ) < 2 ^ (32 + s) := by positivity
  constructor
  · rw [Int.le_ediv_iff_mul_le hpos, hpow]
    nlinarith
  · rw [Int.ediv_lt_iff_lt_mul hpos, hpow]
    nlinarith

/-- The int32 sequence computes the rounded quotient of the dividend, negated for a negative
divisor, by the multiplier and `2 ^ (32 + shift)`.  For a dividend known not to be negative and a
positive divisor it shifts logically and adds nothing, which gives the same quotient. -/
theorem toInt_generateInt32DivRemWithAnyConstant_fst (n : BitVec 32) {d : ℤ} (hd : d ≠ 0) {m : ℕ}
    (hmw : m < 2 ^ 32) (s : ℕ) {nonNegativeInput : Bool}
    (hnn : nonNegativeInput = true → 0 ≤ n.toInt) :
    (generateInt32DivRemWithAnyConstant n d ((signedMultiplier d m).bmod (2 ^ 32)) s
        nonNegativeInput).1.toInt =
      roundedQuotient m (2 ^ (32 + s)) (if 0 < d then n.toInt else -n.toInt) := by
  have hX : (if 0 < d then n.toInt else -n.toInt) * m = n.toInt * signedMultiplier d m := by
    unfold signedMultiplier
    split_ifs <;> ring
  have hT := toInt_ofInt_mul_signedMultiplier n d hmw
  unfold generateInt32DivRemWithAnyConstant
  dsimp only
  rw [correctHighWord_int32 n hd hmw]
  generalize BitVec.ofInt 64 (n.toInt * signedMultiplier d m) = T at hT ⊢
  obtain ⟨hlo, hhi⟩ := ediv_two_pow_32_bounds T s
  have hpow : (2 : ℤ) ^ (32 + s) = ((2 ^ (32 + s) : ℕ) : ℤ) := by push_cast; rfl
  rw [roundedQuotient, hX, ← hT]
  by_cases hunsigned : d > 0 ∧ nonNegativeInput = true
  · -- the logical shift of a product that is not negative
    have hσ : signedMultiplier d m = m := if_pos hunsigned.1
    have hT0 : 0 ≤ T.toInt := by
      rw [hT, hσ]
      exact Int.mul_nonneg (hnn hunsigned.2) (Int.natCast_nonneg m)
    have hnat : T.toInt = T.toNat := BitVec.toInt_eq_toNat_of_msb (by
      rw [BitVec.msb_eq_toInt]
      exact decide_eq_false (Int.not_lt.2 hT0))
    have hshift : (T >>> (32 + s)).toInt = T.toInt / 2 ^ (32 + s) := by
      rw [BitVec.toInt_ushiftRight, if_neg (by omega), hnat, Nat.shiftRight_eq_div_pow, hpow,
        Int.natCast_ediv]
    rw [if_pos hunsigned, ← hpow, if_neg (Int.not_lt.2 (Int.ediv_nonneg hT0 (by positivity))),
      toInt_setWidth_32 _ (hshift ▸ hlo) (hshift ▸ hhi), hshift]
  · -- the arithmetic shift, then one more for a negative quotient
    have hsh : (T.sshiftRight (32 + s)).toInt = T.toInt / 2 ^ (32 + s) := by
      rw [BitVec.toInt_sshiftRight, Int.shiftRight_eq_div_pow, hpow]
    have hx : ((T.sshiftRight (32 + s)).setWidth 32).toInt = T.toInt / 2 ^ (32 + s) := by
      rw [toInt_setWidth_32 _ (hsh ▸ hlo) (hsh ▸ hhi), hsh]
    have hneg : T.msb = decide (((T.sshiftRight (32 + s)).setWidth 32).toInt < 0) := by
      rw [BitVec.msb_eq_toInt, hx]
      exact decide_eq_decide.2 (ediv_two_pow_neg_iff (32 + s)).symm
    rw [if_neg hunsigned, toInt_generateIncrementNegativeByOne (by decide) _ _ hneg, hx, hpow]

theorem generateInt32DivRemWithAnyConstant_snd (n : BitVec 32) (d M : ℤ) (s : ℕ)
    (nonNegativeInput : Bool) :
    (generateInt32DivRemWithAnyConstant n d M s nonNegativeInput).2 =
      generateResultRemWithAnyConstant n
        (generateInt32DivRemWithAnyConstant n d M s nonNegativeInput).1 d := by
  unfold generateInt32DivRemWithAnyConstant
  split_ifs <;> rfl

end Sequence

/-! ### The magic number and the shift -/

section Magic

variable {w : ℕ}

/-- `exp + sign_bit`: `2 ^ (w - 1)`, one more for a negative divisor. -/
def ncBase (w : ℕ) (d : ℤ) : ℕ := 2 ^ (w - 1) + if d < 0 then 1 else 0

/-- `abs_nc`: the largest number below `exp + sign_bit` that is `-1` modulo `|d|`. -/
def absNcOf (w : ℕ) (d : ℤ) : ℕ := ncBase w d - 1 - ncBase w d % d.natAbs

theorem toInt_ofInt_64 {d : ℤ} (hd : d.natAbs < 2 ^ 63) : (BitVec.ofInt 64 d).toInt = d := by
  rw [BitVec.toInt_ofInt]
  exact bmod_two_pow_eq (by decide) (by omega) (by omega)

/-- `abs_d` is `|d|`. -/
theorem absD_eq {d : ℤ} (hd : d.natAbs < 2 ^ 63) :
    (if 0 ≤ d then BitVec.ofInt 64 d else -BitVec.ofInt 64 d) = BitVec.ofNat 64 d.natAbs := by
  split_ifs with h
  · conv_lhs => rw [← Int.natAbs_of_nonneg h]
    exact BitVec.ofInt_natCast _ _
  · apply BitVec.eq_of_toNat_eq
    rw [BitVec.toNat_neg, BitVec.toNat_ofInt, BitVec.toNat_ofNat]
    omega

/-- `exp` is `2 ^ (w - 1)`. -/
theorem exp_eq (hw : w = 32 ∨ w = 64) :
    (if (w == 64) = true then (1 : BitVec 64) <<< 63 else ((1 : BitVec 32) <<< 31).setWidth 64) =
      BitVec.ofNat 64 (2 ^ (w - 1)) := by
  rcases hw with rfl | rfl <;> decide

theorem p_eq (hw : w = 32 ∨ w = 64) : (if (w == 64) = true then 63 else 31) = w - 1 := by
  rcases hw with rfl | rfl <;> rfl

theorem shift_eq (hw : w = 32 ∨ w = 64) (p : ℕ) :
    (if (w == 64) = true then (p : ℤ) - 64 else (p : ℤ) - 32) = (p : ℤ) - w := by
  rcases hw with rfl | rfl <;> rfl

/-- `sign_bit` is `1` for a negative divisor. -/
theorem signBit_eq (hw : w = 32 ∨ w = 64) {d : ℤ} (hdw : d.natAbs < 2 ^ (w - 1)) :
    (if (w == 64) = true then BitVec.ofInt 64 d >>> 63
      else ((BitVec.ofInt 64 d).setWidth 32 >>> 31).setWidth 64) =
      BitVec.ofNat 64 (if d < 0 then 1 else 0) := by
  apply BitVec.eq_of_toNat_eq
  rcases hw with rfl | rfl
  · rw [if_neg (by decide), BitVec.toNat_setWidth, BitVec.toNat_ushiftRight, BitVec.toNat_setWidth,
      BitVec.toNat_ofInt, BitVec.toNat_ofNat, Nat.shiftRight_eq_div_pow]
    split_ifs <;> omega
  · rw [if_pos (show (64 == 64) = true from rfl), BitVec.toNat_ushiftRight, BitVec.toNat_ofInt, BitVec.toNat_ofNat,
      Nat.shiftRight_eq_div_pow]
    split_ifs <;> omega

theorem ofNat_udiv {x y : ℕ} (hx : x < 2 ^ 64) (hy : y < 2 ^ 64) :
    BitVec.ofNat 64 x / BitVec.ofNat 64 y = BitVec.ofNat 64 (x / y) := by
  apply BitVec.eq_of_toNat_eq
  rw [BitVec.toNat_udiv, BitVec.toNat_ofNat, BitVec.toNat_ofNat, BitVec.toNat_ofNat,
    Nat.mod_eq_of_lt hx, Nat.mod_eq_of_lt hy, Nat.mod_eq_of_lt (Nat.lt_of_le_of_lt (Nat.div_le_self _ _) hx)]

theorem ofNat_umod {x y : ℕ} (hx : x < 2 ^ 64) (hy : y < 2 ^ 64) :
    BitVec.ofNat 64 x % BitVec.ofNat 64 y = BitVec.ofNat 64 (x % y) := by
  apply BitVec.eq_of_toNat_eq
  rw [BitVec.toNat_umod, BitVec.toNat_ofNat, BitVec.toNat_ofNat, BitVec.toNat_ofNat,
    Nat.mod_eq_of_lt hx, Nat.mod_eq_of_lt hy, Nat.mod_eq_of_lt (Nat.lt_of_le_of_lt (Nat.mod_le _ _) hx)]

/-- `tmp - 1 - tmp % abs_d` without wrapping. -/
theorem ofNat_sub_one_sub_umod {t a : ℕ} (ht : t < 2 ^ 64) (ha : 0 < a) (hat : a ≤ t) :
    BitVec.ofNat 64 t - 1 - BitVec.ofNat 64 t % BitVec.ofNat 64 a =
      BitVec.ofNat 64 (t - 1 - t % a) := by
  have hmod := Nat.mod_lt t ha
  have h1 : (1 : BitVec 64).toNat = 1 := rfl
  rw [ofNat_umod ht (by omega)]
  apply BitVec.eq_of_toNat_eq
  rw [BitVec.toNat_sub, BitVec.toNat_sub, h1, BitVec.toNat_ofNat, BitVec.toNat_ofNat,
    BitVec.toNat_ofNat, Nat.mod_eq_of_lt ht, Nat.mod_eq_of_lt (by omega : t % a < 2 ^ 64),
    Nat.mod_eq_of_lt (by omega : t - 1 - t % a < 2 ^ 64)]
  omega

/-- The magic number as `CalculateMagicAndShiftForDivRem` leaves it: the multiplier `q + 1`
with the divisor's sign, cut to an `int` for `w = 32`. -/
theorem toInt_magic (hw : w = 32 ∨ w = 64) (d : ℤ) (q : ℕ) :
    (if (w == 64) = true then (if 0 < d then BitVec.ofNat 64 q + 1 else -BitVec.ofNat 64 q - 1)
      else ((if 0 < d then BitVec.ofNat 64 q + 1 else -BitVec.ofNat 64 q - 1).setWidth 32).signExtend
        64).toInt =
      (signedMultiplier d (q + 1)).bmod (2 ^ w) := by
  have hmag : (if 0 < d then BitVec.ofNat 64 q + 1 else -BitVec.ofNat 64 q - 1) =
      BitVec.ofInt 64 (signedMultiplier d (q + 1)) := by
    unfold signedMultiplier
    split_ifs
    · rw [BitVec.ofInt_natCast, BitVec.ofNat_add]
      rfl
    · rw [BitVec.ofInt_neg, BitVec.ofInt_natCast, BitVec.ofNat_add, BitVec.neg_add]
      rfl
  rw [hmag]
  rcases hw with rfl | rfl
  · -- `static_cast<int>` keeps the low 32 bits
    have hcut : (BitVec.ofInt 64 (signedMultiplier d (q + 1))).setWidth 32 =
        BitVec.ofInt 32 (signedMultiplier d (q + 1)) := by
      apply BitVec.eq_of_toNat_eq
      rw [BitVec.toNat_setWidth, BitVec.toNat_ofInt, BitVec.toNat_ofInt]
      omega
    rw [if_neg (by decide), hcut, BitVec.toInt_signExtend_of_le (by decide), BitVec.toInt_ofInt]
  · rw [if_pos (show (64 == 64) = true from rfl), BitVec.toInt_ofInt]

variable {d : ℤ}

theorem two_pow_pred_bounds (hw : w = 32 ∨ w = 64) : 4 ≤ 2 ^ (w - 1) ∧ 2 ^ (w - 1) ≤ 2 ^ 63 ∧ 0 < w - 1 := by
  rcases hw with rfl | rfl <;> decide

theorem absNcOf_mod (hd : 2 ≤ d.natAbs) (hdw : d.natAbs < 2 ^ (w - 1)) :
    absNcOf w d % d.natAbs = d.natAbs - 1 := by
  unfold absNcOf
  exact sub_one_sub_mod_mod (by omega) (by unfold ncBase; omega)

theorem absNcOf_le : absNcOf w d ≤ 2 ^ (w - 1) := by
  have hP := Nat.two_pow_pos (w - 1)
  unfold absNcOf ncBase
  split_ifs <;> omega

theorem two_le_absNcOf (hw : w = 32 ∨ w = 64) (hd : 2 ≤ d.natAbs) (hdw : d.natAbs < 2 ^ (w - 1)) :
    2 ≤ absNcOf w d := by
  have h4 := (two_pow_pred_bounds hw).1
  have hlt := Nat.mod_lt (ncBase w d) (by omega : 0 < d.natAbs)
  -- `abs_nc` is at least `|d| - 1`, and at least `2 ^ (w - 1) - |d|`
  have hle : d.natAbs - 1 ≤ absNcOf w d := absNcOf_mod hd hdw ▸ Nat.mod_le _ _
  unfold absNcOf ncBase at *
  split_ifs at * <;> omega

/-- The dividends on the side of zero the search covers lie below `abs_nc + |d|`. -/
theorem ncBase_le_absNcOf_add (hd : 2 ≤ d.natAbs) (hdw : d.natAbs < 2 ^ (w - 1)) :
    ncBase w d ≤ absNcOf w d + d.natAbs := by
  have hlt := Nat.mod_lt (ncBase w d) (by omega : 0 < d.natAbs)
  have hpos : d.natAbs ≤ ncBase w d := by unfold ncBase; omega
  unfold absNcOf
  omega

/-- `abs_nc` is `2 ^ (w - 1)` only when `|d|` divides `2 ^ (w - 1) + 1`. -/
theorem dvd_of_absNcOf_eq (hd : 2 ≤ d.natAbs) (h : absNcOf w d = 2 ^ (w - 1)) :
    d.natAbs ∣ 2 ^ (w - 1) + 1 := by
  have hlt := Nat.mod_lt (ncBase w d) (by omega : 0 < d.natAbs)
  have hP := Nat.two_pow_pos (w - 1)
  unfold absNcOf ncBase at h hlt
  split_ifs at h hlt with hneg
  · apply Nat.dvd_of_mod_eq_zero
    omega
  · omega

/-- For a positive divisor, `2 ^ (w - 1)` reaches `abs_nc + |d|` only when `|d|` divides
`2 ^ (w - 1) + 1`. -/
theorem dvd_of_absNcOf_add_le (hd : 2 ≤ d.natAbs) (hpos : 0 < d)
    (h : absNcOf w d + d.natAbs ≤ 2 ^ (w - 1)) : d.natAbs ∣ 2 ^ (w - 1) + 1 := by
  have hlt := Nat.mod_lt (2 ^ (w - 1)) (by omega : 0 < d.natAbs)
  unfold absNcOf ncBase at h
  rw [if_neg (by omega), Nat.add_zero] at h
  apply Nat.dvd_of_mod_eq_zero
  rw [Nat.add_mod, show 2 ^ (w - 1) % d.natAbs = d.natAbs - 1 by omega, Nat.one_mod_eq_one.2 (by omega),
    Nat.sub_add_cancel (by omega), Nat.mod_self]

theorem exists_exactAt (hw : w = 32 ∨ w = 64) (hdw : d.natAbs < 2 ^ (w - 1)) :
    ∃ p, w ≤ p ∧ ExactAt d.natAbs (absNcOf w d) p := by
  have hj := (two_pow_pred_bounds hw).2.2
  exact ⟨2 * (w - 1), by omega, exactAt_two_mul absNcOf_le hdw⟩

/-- `CalculateMagicAndShiftForDivRem` finds the least `p` from `w` on with `ExactAt |d| abs_nc p`,
which is at most `2 * w - 2`, and the multiplier `2 ^ p / |d| + 1`, below `2 ^ w`: no `uint64_t`
in its loop wraps. -/
theorem calculateMagicAndShiftForDivRem_spec (hw : w = 32 ∨ w = 64) (hd : 2 ≤ d.natAbs)
    (hdw : d.natAbs < 2 ^ (w - 1)) :
    ∃ p, w ≤ p ∧ p ≤ 2 * (w - 1) ∧ ExactAt d.natAbs (absNcOf w d) p ∧
      (∀ r, w ≤ r → r < p → ¬ExactAt d.natAbs (absNcOf w d) r) ∧
      2 ^ p / d.natAbs + 1 < 2 ^ w ∧
      ∃ magic : BitVec 64, magic.toInt = (signedMultiplier d (2 ^ p / d.natAbs + 1)).bmod (2 ^ w) ∧
        calculateMagicAndShiftForDivRem (BitVec.ofInt 64 d) (w == 64) = some (magic, (p : ℤ) - w) := by
  obtain ⟨h4, h63, hj⟩ := two_pow_pred_bounds hw
  have hex := exists_exactAt hw hdw
  have hp : w ≤ Nat.find hex ∧ ExactAt d.natAbs (absNcOf w d) (Nat.find hex) := Nat.find_spec hex
  have hp2 : Nat.find hex ≤ 2 * (w - 1) :=
    Nat.find_min' hex ⟨by omega, exactAt_two_mul absNcOf_le hdw⟩
  have hmin : ∀ r, w ≤ r → r < Nat.find hex → ¬ExactAt d.natAbs (absNcOf w d) r :=
    fun r hr hrp hE => Nat.find_min hex hrp ⟨hr, hE⟩
  generalize Nat.find hex = p at hp hp2 hmin
  have hnc2 := two_le_absNcOf hw hd hdw
  have hncle : absNcOf w d ≤ 2 ^ (w - 1) := absNcOf_le
  have hm : 2 ^ p / d.natAbs + 1 < 2 ^ w := by
    have hnc : absNcOf w d < 2 ^ (w - 1) ∨
        (absNcOf w d = 2 ^ (w - 1) ∧ 2 ^ (p - 1) % d.natAbs ≠ 0) := by
      rcases Nat.lt_or_eq_of_le hncle with hlt | heq
      · exact Or.inl hlt
      · exact Or.inr ⟨heq, two_pow_mod_ne_zero
          (odd_of_dvd_two_pow_add_one hj (dvd_of_absNcOf_eq hd heq)) hd _⟩
    have := div_add_one_lt hj hd hdw (by omega : w - 1 + 1 ≤ p)
      (fun hlt => hmin (p - 1) (by omega) (by omega)) hnc
    rwa [show w - 1 + 1 = w by omega] at this
  have hw64 : 2 ^ w ≤ 2 ^ 64 := Nat.pow_le_pow_right (by decide) (by omega)
  -- the quotients by `abs_nc` fit in a `uint64_t`: at most `2 * |d|` after the first pass
  have hq1 : 2 ^ p / absNcOf w d < 2 ^ 64 := by
    rcases Nat.eq_or_lt_of_le hp.1 with heq | hlt
    · -- the first pass: `abs_nc` is at least 2
      have h2 : 2 ^ p = 2 * 2 ^ (w - 1) := by
        rw [← Nat.pow_succ', ← heq]
        congr 1
        omega
      have hle : 2 ^ p / absNcOf w d ≤ 2 ^ p / 2 := Nat.div_le_div_left hnc2 (by decide)
      omega
    · -- the pass before failed the test: `2 ^ (p - 1) ≤ abs_nc * |d|`
      have hprev := Nat.le_of_not_lt (hmin (p - 1) (by omega) (by omega))
      have hδ : absNcOf w d * (d.natAbs - 2 ^ (p - 1) % d.natAbs) ≤ absNcOf w d * d.natAbs :=
        Nat.mul_le_mul_left _ (Nat.sub_le _ _)
      have h2 : 2 ^ p = 2 * 2 ^ (p - 1) := by
        rw [← Nat.pow_succ']
        congr 1
        omega
      have hle : 2 ^ p / absNcOf w d ≤ 2 * d.natAbs := by
        apply Nat.div_le_of_le_mul
        rw [Nat.mul_left_comm]
        omega
      omega
  have hrun := calculateMagicLoop_eq (by omega) (by omega) (by omega) (by omega) hp.2 hq1 (by omega)
    64 (w - 1) (by omega) (by omega) (fun r hr hrp => hmin r (by omega) hrp)
  refine ⟨p, hp.1, hp2, hp.2, hmin, hm, _, toInt_magic hw d (2 ^ p / d.natAbs), ?_⟩
  have h63' : d.natAbs < 2 ^ 63 := by omega
  have hncBase : 2 ^ (w - 1) + (if d < 0 then 1 else 0) < 2 ^ 64 := by split_ifs <;> omega
  have habsNc : BitVec.ofNat 64 (2 ^ (w - 1) + if d < 0 then 1 else 0) - 1 -
      BitVec.ofNat 64 (2 ^ (w - 1) + if d < 0 then 1 else 0) % BitVec.ofNat 64 d.natAbs =
      BitVec.ofNat 64 (absNcOf w d) :=
    ofNat_sub_one_sub_umod hncBase (by omega) (by split_ifs <;> omega)
  have he : 2 ^ (w - 1) < 2 ^ 64 := by omega
  have hrun' : calculateMagicLoop (BitVec.ofNat 64 d.natAbs) (BitVec.ofNat 64 (absNcOf w d)) 64
      ⟨w - 1, (BitVec.ofNat 64 (2 ^ (w - 1) / absNcOf w d), BitVec.ofNat 64 (2 ^ (w - 1) % absNcOf w d)),
        (BitVec.ofNat 64 (2 ^ (w - 1) / d.natAbs), BitVec.ofNat 64 (2 ^ (w - 1) % d.natAbs))⟩ =
      some (magicStateAt d.natAbs (absNcOf w d) p) := hrun
  unfold calculateMagicAndShiftForDivRem
  simp only [toInt_ofInt_64 h63', absD_eq h63', exp_eq hw, signBit_eq hw hdw, p_eq hw,
    ← BitVec.ofNat_add, habsNc, ofNat_udiv he (by omega : absNcOf w d < 2 ^ 64),
    ofNat_umod he (by omega : absNcOf w d < 2 ^ 64), ofNat_udiv he (by omega : d.natAbs < 2 ^ 64),
    ofNat_umod he (by omega : d.natAbs < 2 ^ 64), hrun', Option.map_some, shift_eq hw]
  rfl

end Magic

/-! ### Division by a constant is exact -/

section Exact

variable {w p : ℕ} {d : ℤ}

theorem magic_mul_eq {a : ℕ} (ha : 0 < a) (p : ℕ) : (2 ^ p / a + 1) * a = 2 ^ p + (a - 2 ^ p % a) := by
  have h := Nat.div_add_mod' (2 ^ p) a
  have hlt := Nat.mod_lt (2 ^ p) ha
  rw [Nat.add_one_mul]
  omega

/-- Dividends below `exp + sign_bit` are within the error bound. -/
theorem error_lt_of_lt_ncBase (hd : 2 ≤ d.natAbs) (hdw : d.natAbs < 2 ^ (w - 1))
    (hE : ExactAt d.natAbs (absNcOf w d) p) {x : ℕ} (hx : x < ncBase w d) :
    x * (d.natAbs - 2 ^ p % d.natAbs) < (d.natAbs - x % d.natAbs) * 2 ^ p :=
  error_lt (by omega) (absNcOf_mod hd hdw) hE
    (Nat.lt_of_lt_of_le hx (ncBase_le_absNcOf_add hd hdw))

/-- Dividends up to `2 ^ (w - 1)` are within the error bound at most: past `abs_nc + |d|` only
`2 ^ (w - 1)` itself, for a positive divisor dividing `2 ^ (w - 1) + 1`. -/
theorem error_le_of_le (hw : w = 32 ∨ w = 64) (hd : 2 ≤ d.natAbs) (hdw : d.natAbs < 2 ^ (w - 1))
    (hp : w ≤ p) (hE : ExactAt d.natAbs (absNcOf w d) p) {x : ℕ} (hx : x ≤ 2 ^ (w - 1)) :
    x * (d.natAbs - 2 ^ p % d.natAbs) ≤ (d.natAbs - x % d.natAbs) * 2 ^ p := by
  have hj := (two_pow_pred_bounds hw).2.2
  by_cases hlt : x < absNcOf w d + d.natAbs
  · exact Nat.le_of_lt (error_lt (by omega) (absNcOf_mod hd hdw) hE hlt)
  · -- `x` is `2 ^ (w - 1) = abs_nc + |d|`, which happens for a positive divisor only
    have hbase := ncBase_le_absNcOf_add hd hdw
    have hpos : 0 < d := by
      unfold ncBase at hbase
      split_ifs at hbase with hneg <;> omega
    have hbase' : 2 ^ (w - 1) ≤ absNcOf w d + d.natAbs := by
      unfold ncBase at hbase
      rwa [if_neg (by omega), Nat.add_zero] at hbase
    have hxeq : x = absNcOf w d + d.natAbs :=
      Nat.le_antisymm (hx.trans hbase') (Nat.le_of_not_lt hlt)
    have hx' : x = 2 ^ (w - 1) := Nat.le_antisymm hx (hxeq ▸ hbase')
    have hdvd := dvd_of_absNcOf_add_le hd hpos (hxeq ▸ hx)
    have hmod : x % d.natAbs = d.natAbs - 1 := by
      rw [hxeq, Nat.add_mod_right, absNcOf_mod hd hdw]
    rw [hmod, Nat.sub_sub_self (by omega), Nat.one_mul, hx']
    exact two_pow_mul_sub_mod_le hj hd hdvd (by omega)

/-- The rounded quotient with the magic multiplier is the quotient rounded towards zero, for
every dividend of the register width. -/
theorem roundedQuotient_magic_eq_tdiv (hw : w = 32 ∨ w = 64) (hd : 2 ≤ d.natAbs)
    (hdw : d.natAbs < 2 ^ (w - 1)) (hwp : w ≤ p) (hE : ExactAt d.natAbs (absNcOf w d) p)
    (n : BitVec w) :
    roundedQuotient (2 ^ p / d.natAbs + 1) (2 ^ p) (if 0 < d then n.toInt else -n.toInt) =
      n.toInt.tdiv d := by
  have hj := (two_pow_pred_bounds hw).2.2
  have ha : 0 < d.natAbs := by omega
  have hδ : 0 < d.natAbs - 2 ^ p % d.natAbs := Nat.sub_pos_of_lt (Nat.mod_lt _ ha)
  have hn1 := BitVec.le_toInt n
  have hn2 := BitVec.toInt_lt (x := n)
  have hP : ((2 ^ (w - 1) : ℕ) : ℤ) = 2 ^ (w - 1) := by push_cast; rfl
  rw [roundedQuotient_eq_tdiv (magic_mul_eq ha p) ha (Nat.two_pow_pos p) hδ]
  · -- back from `|d|` to `d`
    by_cases hpos : 0 < d
    · rw [if_pos hpos, Int.natAbs_of_nonneg (by omega)]
    · rw [if_neg hpos, Int.neg_tdiv, ← Int.tdiv_neg, Int.ofNat_natAbs_of_nonpos (by omega),
        Int.neg_neg]
  · -- a dividend that is not negative: below `exp + sign_bit`
    intro x hx
    apply error_lt_of_lt_ncBase hd hdw hE
    unfold ncBase
    split_ifs at hx ⊢ <;> omega
  · -- a negative one: at most `2 ^ (w - 1)`
    intro x hx _
    apply error_le_of_le hw hd hdw hwp hE
    split_ifs at hx <;> omega

/-- Every dividend of the register width is divided exactly: for `W` of 32 and 64 and a divisor
`d` with `2 ≤ |d| < 2 ^ (W - 1)`, `CalculateMagicAndShiftForDivRem` returns a shift in `[0, W)`
and the multiplier `2 ^ (W + shift) / |d| + 1`, below `2 ^ W`, with the divisor's sign and cut to
`W` bits.  With them `GenerateInt64DivRemWithAnyConstant` gives the quotient rounded towards zero
and the remainder with the dividend's sign, and the unsigned sequence the quotient of a
non-negative dividend by a positive divisor; `GenerateInt32DivRemWithAnyConstant` gives the same
quotient and remainder, on both of its paths. -/
theorem magic_division_exact (w : ℕ) (hw : w = 32 ∨ w = 64) (d : ℤ) (hd : 2 ≤ d.natAbs)
    (hdw : d.natAbs < 2 ^ (w - 1)) :
    ∃ magic shift, calculateMagicAndShiftForDivRem (BitVec.ofInt 64 d) (w == 64) =
        some (magic, shift) ∧
      0 ≤ shift ∧ shift < w ∧
      magic.toInt = (signedMultiplier d (2 ^ (w + shift.toNat) / d.natAbs + 1)).bmod (2 ^ w) ∧
      2 ^ (w + shift.toNat) / d.natAbs + 1 < 2 ^ w ∧
      (w = 64 → ∀ n : BitVec 64,
        (generateInt64DivRemWithAnyConstant n d magic.toInt shift.toNat).1.toInt =
            n.toInt.tdiv d ∧
          (generateInt64DivRemWithAnyConstant n d magic.toInt shift.toNat).2.toInt =
            n.toInt.tmod d ∧
          (0 ≤ n.toInt → 0 < d →
            (generateUnsignedDivCode n magic.toInt shift.toNat).toNat = n.toNat / d.natAbs)) ∧
      (w = 32 → ∀ (n : BitVec 32) (nonNegativeInput : Bool),
        (nonNegativeInput = true → 0 ≤ n.toInt) →
        (generateInt32DivRemWithAnyConstant n d magic.toInt shift.toNat nonNegativeInput).1.toInt =
            n.toInt.tdiv d ∧
          (generateInt32DivRemWithAnyConstant n d magic.toInt shift.toNat
            nonNegativeInput).2.toInt = n.toInt.tmod d) := by
  obtain ⟨p, hwp, hp2, hE, -, hm, magic, hmagic, hcalc⟩ :=
    calculateMagicAndShiftForDivRem_spec hw hd hdw
  have hs : ((p : ℤ) - w).toNat = p - w := by omega
  have hpw : w + (p - w) = p := by omega
  have hd0 : d ≠ 0 := fun h => by simp [h] at hd
  have hmw : 2 ^ p / d.natAbs + 1 < 2 ^ w := hm
  refine ⟨magic, (p : ℤ) - w, hcalc, by omega, by omega, ?_, ?_, fun h64 n => ?_,
    fun h32 n nonNegativeInput hnn => ?_⟩
  · rw [hs, hpw, hmagic]
  · rw [hs, hpw]
    exact hm
  · subst h64
    rw [hs, hmagic]
    have hquot : (generateInt64DivRemWithAnyConstant n d
        ((signedMultiplier d (2 ^ p / d.natAbs + 1)).bmod (2 ^ 64)) (p - 64)).1.toInt =
        n.toInt.tdiv d := by
      rw [toInt_generateInt64DivRemWithAnyConstant_fst (by omega) n hd0 hmw, hpw]
      exact roundedQuotient_magic_eq_tdiv hw hd hdw hwp hE n
    refine ⟨hquot, toInt_generateResultRemWithAnyConstant (by omega) n _ hd0 hdw hquot,
      fun hn hpos => ?_⟩
    -- the unsigned sequence: the multiplier's quotient, exact below `2 ^ 63`
    have ha : 0 < d.natAbs := by omega
    have hσ : signedMultiplier d (2 ^ p / d.natAbs + 1) = ((2 ^ p / d.natAbs + 1 : ℕ) : ℤ) :=
      if_pos hpos
    have hnat : (n.toNat : ℤ) = n.toInt := (BitVec.toInt_eq_toNat_of_msb (by
      rw [BitVec.msb_eq_toInt]
      exact decide_eq_false (by omega))).symm
    have hn2 := BitVec.toInt_lt (x := n)
    rw [hσ, toNat_generateUnsignedDivCode (by omega) n hn hmw, hpw, Nat.mul_comm,
      mul_div_eq_div (magic_mul_eq ha p) (error_lt_of_lt_ncBase hd hdw hE (by
        unfold ncBase
        omega))]
  · subst h32
    rw [hs, hmagic]
    have hquot : (generateInt32DivRemWithAnyConstant n d
        ((signedMultiplier d (2 ^ p / d.natAbs + 1)).bmod (2 ^ 32)) (p - 32)
          nonNegativeInput).1.toInt = n.toInt.tdiv d := by
      rw [toInt_generateInt32DivRemWithAnyConstant_fst n hd0 hmw _ hnn, hpw]
      exact roundedQuotient_magic_eq_tdiv hw hd hdw hwp hE n
    rw [generateInt32DivRemWithAnyConstant_snd]
    exact ⟨hquot, toInt_generateResultRemWithAnyConstant (by omega) n _ hd0 hdw hquot⟩

theorem magic_division_exact_by_seven :
    ∃ magic shift, calculateMagicAndShiftForDivRem (BitVec.ofInt 64 7) (32 == 64) =
      some (magic, shift) ∧ ∀ n : BitVec 32,
        (generateInt32DivRemWithAnyConstant n 7 magic.toInt shift.toNat false).1.toInt =
          n.toInt.tdiv 7 :=
  let ⟨magic, shift, hcalc, _, _, _, _, _, h32⟩ :=
    magic_division_exact 32 (Or.inl rfl) 7 (by decide) (by decide)
  ⟨magic, shift, hcalc, fun n => (h32 rfl n false (fun h => absurd h Bool.false_ne_true)).1⟩

end Exact

end Art
