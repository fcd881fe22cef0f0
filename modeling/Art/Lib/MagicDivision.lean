import Mathlib

/-!
# Division by an invariant integer

The multiply-and-shift quotient of Granlund and Montgomery.  For a divisor `a` and a multiplier
`m` with `m * a = D + δ`, the quotient `m * x / D` is `x / a` as long as the error `x * δ` stays
below `(a - x % a) * D`, the distance to the next multiple of `a` (`mul_div_eq_div`); for a
negative dividend the floor is one below the quotient rounded towards zero while the error is at
most that distance (`neg_mul_ediv_eq`).  Together they make the rounded quotient `Int.tdiv`
(`roundedQuotient_eq_tdiv`).

The error bound holds below `nc + a` once `nc ≡ -1 (mod a)` and `nc * δ < D` (`error_lt`).  With
`D = 2 ^ p` the search for the least such `p` ends by `2 * j` when `nc` and `a` are at most
`2 ^ j` (`exactAt_two_mul`), and the multiplier it gives fits in `j + 1` bits (`div_add_one_lt`).
-/

namespace MagicDivision

section Quotient

variable {a m D δ x : ℕ}

theorem mul_mul_eq (hm : m * a = D + δ) (x : ℕ) : a * (m * x) = x * D + x * δ := by
  rw [← Nat.mul_assoc, Nat.mul_comm a m, hm, Nat.add_mul, Nat.mul_comm D, Nat.mul_comm δ]

theorem add_sub_mod_eq (x : ℕ) (ha : 0 < a) : x + (a - x % a) = a * (x / a + 1) := by
  have := Nat.div_add_mod x a
  have := Nat.mod_lt x ha
  rw [Nat.mul_add_one]
  omega

/-- The multiplier's quotient is exact while the error stays below the distance to the next
multiple of `a`. -/
theorem mul_div_eq_div (hm : m * a = D + δ) (hx : x * δ < (a - x % a) * D) :
    m * x / D = x / a := by
  -- with `a = 0` there is no room for the error
  have ha : 0 < a := Nat.pos_of_ne_zero fun h => by simp [h] at hx
  have key := mul_mul_eq hm x
  apply Nat.div_eq_of_lt_le
  · apply Nat.le_of_mul_le_mul_left _ ha
    calc a * (x / a * D) = a * (x / a) * D := (Nat.mul_assoc _ _ _).symm
      _ ≤ x * D := Nat.mul_le_mul_right D (Nat.mul_div_le x a)
      _ ≤ a * (m * x) := by rw [key]; exact Nat.le_add_right _ _
  · refine Nat.lt_of_mul_lt_mul_left (?_ : a * (m * x) < a * ((x / a + 1) * D))
    calc a * (m * x) = x * D + x * δ := key
      _ < x * D + (a - x % a) * D := Nat.add_lt_add_left hx _
      _ = (x + (a - x % a)) * D := (Nat.add_mul _ _ _).symm
      _ = a * ((x / a + 1) * D) := by rw [add_sub_mod_eq x ha, Nat.mul_assoc]

theorem lt_mul_of_pos (hm : m * a = D + δ) (hδ : 0 < δ) (hx : 0 < x) : x / a * D < m * x := by
  rcases Nat.eq_zero_or_pos a with rfl | ha
  · rw [Nat.div_zero, Nat.zero_mul]
    -- `m * 0 = D + δ` leaves `δ = 0`
    rw [Nat.mul_zero] at hm
    omega
  · refine Nat.lt_of_mul_lt_mul_left (?_ : a * (x / a * D) < a * (m * x))
    have hpos : 0 < x * δ := Nat.mul_pos hx hδ
    calc a * (x / a * D) = a * (x / a) * D := (Nat.mul_assoc _ _ _).symm
      _ ≤ x * D := Nat.mul_le_mul_right D (Nat.mul_div_le x a)
      _ < x * D + x * δ := Nat.lt_add_of_pos_right hpos
      _ = a * (m * x) := (mul_mul_eq hm x).symm

theorem mul_le_of_error_le (hm : m * a = D + δ) (ha : 0 < a) (hx : x * δ ≤ (a - x % a) * D) :
    m * x ≤ (x / a + 1) * D := by
  refine Nat.le_of_mul_le_mul_left (?_ : a * (m * x) ≤ a * ((x / a + 1) * D)) ha
  calc a * (m * x) = x * D + x * δ := mul_mul_eq hm x
    _ ≤ x * D + (a - x % a) * D := Nat.add_le_add_left hx _
    _ = (x + (a - x % a)) * D := (Nat.add_mul _ _ _).symm
    _ = a * ((x / a + 1) * D) := by rw [add_sub_mod_eq x ha, Nat.mul_assoc]

/-- For a negative dividend the floor of the product is one below the quotient rounded towards
zero, while the error is at most the distance to the next multiple. -/
theorem neg_mul_ediv_eq (hm : m * a = D + δ) (ha : 0 < a) (hD : 0 < D) (hδ : 0 < δ) (hx0 : 0 < x)
    (hx : x * δ ≤ (a - x % a) * D) :
    -((m * x : ℕ) : ℤ) / D = -((x / a : ℕ) : ℤ) - 1 := by
  have hlo : ((x / a : ℕ) : ℤ) * D < ((m * x : ℕ) : ℤ) := by exact_mod_cast lt_mul_of_pos hm hδ hx0
  have hhi : ((m * x : ℕ) : ℤ) ≤ (((x / a : ℕ) : ℤ) + 1) * D := by
    exact_mod_cast mul_le_of_error_le hm ha hx
  rw [Int.ediv_eq_iff_of_pos (by exact_mod_cast hD)]
  constructor <;> linarith

/-- The quotient rounded towards zero from the multiplier: the floor of `y * m / D`, one more
when that floor is negative. -/
def roundedQuotient (m D : ℕ) (y : ℤ) : ℤ :=
  if y * m / D < 0 then y * m / D + 1 else y * m / D

theorem roundedQuotient_eq_tdiv (hm : m * a = D + δ) (ha : 0 < a) (hD : 0 < D) (hδ : 0 < δ)
    {y : ℤ} (hpos : ∀ x : ℕ, y = x → x * δ < (a - x % a) * D)
    (hneg : ∀ x : ℕ, y = -x → 0 < x → x * δ ≤ (a - x % a) * D) :
    roundedQuotient m D y = y.tdiv a := by
  obtain ⟨x, rfl | rfl⟩ := Int.eq_nat_or_neg y
  · -- a dividend that is not negative: the floor is the quotient
    have hq := mul_div_eq_div hm (hpos x rfl)
    rw [Nat.mul_comm] at hq
    have hfloor : (x : ℤ) * m / D = ((x / a : ℕ) : ℤ) := by
      rw [← hq]
      push_cast
      rfl
    have hnn : ¬((x / a : ℕ) : ℤ) < 0 := Int.not_lt.2 (Int.natCast_nonneg _)
    rw [roundedQuotient, hfloor, if_neg hnn, Int.ofNat_tdiv]
  · rcases Nat.eq_zero_or_pos x with rfl | hx0
    · simp [roundedQuotient]
    · have hfloor : -(x : ℤ) * m / D = -((x / a : ℕ) : ℤ) - 1 := by
        rw [← neg_mul_ediv_eq hm ha hD hδ hx0 (hneg x rfl hx0)]
        push_cast
        rw [Int.neg_mul, Int.mul_comm]
      have hneg' : -((x / a : ℕ) : ℤ) - 1 < 0 := by
        have := Int.natCast_nonneg (x / a)
        linarith
      rw [roundedQuotient, hfloor, if_pos hneg', Int.neg_tdiv, Int.ofNat_tdiv]
      exact Int.sub_add_cancel _ _

end Quotient

section Bound

variable {a nc D δ x : ℕ}

/-- The shift `p` is enough for dividends up to `nc`: `2 ^ p > nc * (a - 2 ^ p % a)`. -/
def ExactAt (a nc p : ℕ) : Prop := nc * (a - 2 ^ p % a) < 2 ^ p

instance (a nc p : ℕ) : Decidable (ExactAt a nc p) := Nat.decLt _ _

/-- The loop's test on the quotient and remainder of `x` by `b` against `c`. -/
theorem div_lt_or_eq_iff_le {b c : ℕ} (hb : 0 < b) :
    (x / b < c ∨ (x / b = c ∧ x % b = 0)) ↔ x ≤ b * c := by
  have hx := Nat.div_add_mod x b
  rw [Nat.div_lt_iff_lt_mul hb, Nat.mul_comm c b]
  constructor
  · rintro (h | ⟨hq, hr⟩)
    · exact Nat.le_of_lt h
    · rw [hq, hr] at hx
      omega
  · intro h
    rcases Nat.lt_or_eq_of_le h with h | h
    · exact Or.inl h
    · refine Or.inr ⟨?_, ?_⟩
      · rw [h, Nat.mul_div_cancel_left c hb]
      · rw [h, Nat.mul_mod_right]

/-- `t - 1 - t % a` is the largest number below `t` that is `-1` modulo `a`. -/
theorem sub_one_sub_mod_mod {t : ℕ} (ha : 0 < a) (hat : a ≤ t) : (t - 1 - t % a) % a = a - 1 := by
  have ht := Nat.div_add_mod t a
  obtain ⟨k, hk⟩ : ∃ k, t / a = k + 1 :=
    Nat.exists_eq_add_one.2 (Nat.div_pos hat ha)
  rw [hk, Nat.mul_add_one] at ht
  have : t - 1 - t % a = a - 1 + a * k := by omega
  rw [this, Nat.add_mul_mod_self_left, Nat.mod_eq_of_lt (by omega)]

theorem le_of_mod_eq_of_lt_add {y : ℕ} (h : x % a = y % a) (hx : x < y + a) : x ≤ y := by
  have hx' := Nat.div_add_mod x a
  have hy' := Nat.div_add_mod y a
  have hq : x / a ≤ y / a := by
    by_contra hlt
    have : a * (y / a + 1) ≤ a * (x / a) := Nat.mul_le_mul_left a (by omega)
    rw [Nat.mul_add_one] at this
    omega
  have := Nat.mul_le_mul_left a hq
  omega

/-- Below `nc + a` the error is bounded by that of `nc ≡ -1 (mod a)`: a dividend with the same
residue is at most `nc`, and any other has twice the room. -/
theorem error_lt (ha : 0 < a) (hnc : nc % a = a - 1) (hδ : nc * δ < D) (hx : x < nc + a) :
    x * δ < (a - x % a) * D := by
  have hlt := Nat.mod_lt x ha
  by_cases hr : x % a = a - 1
  · have hle : x ≤ nc := le_of_mod_eq_of_lt_add (hr.trans hnc.symm) hx
    rw [hr, Nat.sub_sub_self (by omega), Nat.one_mul]
    exact Nat.lt_of_le_of_lt (Nat.mul_le_mul_right δ hle) hδ
  · have hnc' : a - 1 ≤ nc := hnc ▸ Nat.mod_le nc a
    have h2 : 2 ≤ a - x % a := by omega
    calc x * δ ≤ 2 * nc * δ := Nat.mul_le_mul_right δ (by omega)
      _ = 2 * (nc * δ) := Nat.mul_assoc _ _ _
      _ < 2 * D := by omega
      _ ≤ (a - x % a) * D := Nat.mul_le_mul_right D h2

/-- The search for the shift ends by `2 * j`: there the error bound holds for any `nc` up to
`2 ^ j` and any `a` below it. -/
theorem exactAt_two_mul {j : ℕ} (hnc : nc ≤ 2 ^ j) (ha : a < 2 ^ j) : ExactAt a nc (2 * j) := by
  unfold ExactAt
  rcases Nat.eq_zero_or_pos nc with rfl | hnc0
  · rw [Nat.zero_mul]
    exact Nat.two_pow_pos _
  · calc nc * (a - 2 ^ (2 * j) % a) ≤ nc * a := Nat.mul_le_mul_left nc (Nat.sub_le _ _)
      _ < nc * 2 ^ j := Nat.mul_lt_mul_of_pos_left ha hnc0
      _ ≤ 2 ^ j * 2 ^ j := Nat.mul_le_mul_right _ hnc
      _ = 2 ^ (2 * j) := by rw [← Nat.pow_add, Nat.two_mul]

theorem odd_of_dvd_two_pow_add_one {j : ℕ} (hj : 0 < j) (h : a ∣ 2 ^ j + 1) : Odd a :=
  Odd.of_dvd_nat (Nat.even_pow.2 ⟨even_two, hj.ne'⟩).add_one h

theorem two_pow_mod_ne_zero (hodd : Odd a) (ha : 2 ≤ a) (k : ℕ) : 2 ^ k % a ≠ 0 := fun h => by
  have := ((Nat.coprime_two_right.2 hodd).pow_right k).eq_one_of_dvd (Nat.dvd_of_mod_eq_zero h)
  omega

/-- When `a` divides `2 ^ j + 1`, the error at `2 ^ j` itself is at most `2 ^ p`: the remainders
of `2 ^ p` and `2 ^ (p - j)` add up to `a`. -/
theorem two_pow_mul_sub_mod_le {j p : ℕ} (hj : 0 < j) (ha : 2 ≤ a) (hdvd : a ∣ 2 ^ j + 1)
    (hjp : j ≤ p) : 2 ^ j * (a - 2 ^ p % a) ≤ 2 ^ p := by
  obtain ⟨k, rfl⟩ := Nat.exists_eq_add_of_le hjp
  have hne := two_pow_mod_ne_zero (odd_of_dvd_two_pow_add_one hj hdvd) ha k
  have h1 := Nat.mod_lt (2 ^ (j + k)) (by omega : 0 < a)
  have h2 := Nat.mod_lt (2 ^ k) (by omega : 0 < a)
  have hsum : 2 ^ (j + k) % a + 2 ^ k % a = a := by
    apply Nat.eq_of_dvd_of_lt_two_mul (by omega) _ (by omega)
    apply Nat.dvd_of_mod_eq_zero
    rw [← Nat.add_mod, Nat.pow_add, ← Nat.succ_mul]
    exact Nat.mod_eq_zero_of_dvd (Nat.dvd_trans hdvd (Nat.dvd_mul_right _ _))
  have hδ : a - 2 ^ (j + k) % a = 2 ^ k % a := by omega
  calc 2 ^ j * (a - 2 ^ (j + k) % a) = 2 ^ j * (2 ^ k % a) := by rw [hδ]
    _ ≤ 2 ^ j * 2 ^ k := Nat.mul_le_mul_left _ (Nat.mod_le _ _)
    _ = 2 ^ (j + k) := (Nat.pow_add _ _ _).symm

/-- The multiplier fits in `j + 1` bits.  The search stops at `p`; unless that is its first
step, the bound failed at `p - 1`, which keeps `2 ^ p` below about `2 * nc * a`. -/
theorem div_add_one_lt {j p : ℕ} (hj : 0 < j) (ha : 2 ≤ a) (haj : a < 2 ^ j) (hp : j + 1 ≤ p)
    (hcont : j + 1 < p → ¬ExactAt a nc (p - 1))
    (hnc : nc < 2 ^ j ∨ (nc = 2 ^ j ∧ 2 ^ (p - 1) % a ≠ 0)) :
    2 ^ p / a + 1 < 2 ^ (j + 1) := by
  have hj2 : 2 ^ (j + 1) = 2 * 2 ^ j := Nat.pow_succ'
  have hj1 : 2 ≤ 2 ^ j := Nat.le_self_pow hj.ne' 2
  -- it is enough that `2 ^ p + a < 2 ^ (j + 1) * a`
  have key : 2 ^ p + a < 2 ^ (j + 1) * a := by
    rcases Nat.eq_or_lt_of_le hp with rfl | hlt
    · -- the first step: `2 ^ (j + 1) ≥ 4` and `a ≥ 2`
      nlinarith
    · have hprev := Nat.le_of_not_lt (hcont hlt)
      have hp2 : 2 ^ p = 2 * 2 ^ (p - 1) := by
        rw [← Nat.pow_succ']
        congr 1
        omega
      have hmod := Nat.mod_lt (2 ^ (p - 1)) (by omega : 0 < a)
      rcases hnc with hlt' | ⟨rfl, hne⟩
      · have h1 : nc * (a - 2 ^ (p - 1) % a) ≤ nc * a := Nat.mul_le_mul_left nc (Nat.sub_le _ _)
        have h2 : (nc + 1) * a ≤ 2 ^ j * a := Nat.mul_le_mul_right a hlt'
        rw [Nat.add_one_mul] at h2
        rw [hj2, Nat.mul_assoc]
        omega
      · have h1 : 2 ^ j * (a - 2 ^ (p - 1) % a + 1) ≤ 2 ^ j * a :=
          Nat.mul_le_mul_left _ (by omega)
        rw [Nat.mul_add_one] at h1
        rw [hj2, Nat.mul_assoc]
        omega
  by_contra hge
  have h1 : 2 ^ (j + 1) * a ≤ (2 ^ p / a + 1) * a := Nat.mul_le_mul_right a (by omega)
  rw [Nat.add_one_mul] at h1
  have h2 := Nat.div_mul_le_self (2 ^ p) a
  omega

end Bound

end MagicDivision
