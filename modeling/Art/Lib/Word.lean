import Mathlib

/-!
# 32-bit machine words over `Nat` and `Int`

C++ `uint32_t` arithmetic is `Nat` arithmetic reduced by `u32`; a `uint32_t` read as `int32_t` is
`toInt32`; a signed value stored into a `uint32_t` is `u32I`.  The lemmas say when the reduction
does nothing.  Where the source computes in `int32_t` the model uses `Int32`, whose sums and
differences are those of the integers when they stay in range (`toInt_add_of_le`).
-/

namespace Word32

/-- `uint32_t` wrap-around. -/
def u32 (x : Nat) : Nat := x % 2 ^ 32

/-- `static_cast<int32_t>` of a `uint32_t`. -/
def toInt32 (x : Nat) : Int := if x < 2 ^ 31 then x else (x : Int) - 2 ^ 32

/-- A signed value converted to `uint32_t`. -/
def u32I (x : Int) : Nat := (x % 2 ^ 32).toNat

theorem u32_lt (x : Nat) : u32 x < 2 ^ 32 := Nat.mod_lt _ (by decide)

theorem u32_of_lt {x : Nat} (h : x < 2 ^ 32) : u32 x = x := Nat.mod_eq_of_lt h

theorem toInt32_lt {x : Nat} (h : x < 2 ^ 32) : toInt32 x < 2 ^ 31 := by
  unfold toInt32
  split_ifs <;> omega

theorem toInt32_of_lt {x : Nat} (h : x < 2 ^ 31) : toInt32 x = x := by
  simp only [toInt32, if_pos h]

theorem u32I_of_lt {x : Int} (h0 : 0 ≤ x) (h : x < 2 ^ 32) : u32I x = x.toNat := by
  unfold u32I
  rw [Int.emod_eq_of_lt h0 h]

theorem u32I_natCast {n : Nat} (h : n < 2 ^ 32) : u32I n = n := by
  rw [u32I_of_lt (Int.natCast_nonneg n) (by omega), Int.toNat_natCast]

/-! ### `int32_t` arithmetic that does not wrap -/

theorem toInt_pos_iff {c : Int32} : 0 < c ↔ 0 < c.toInt := by
  rw [Int32.lt_iff_toInt_lt, Int32.toInt_zero]

theorem toInt_add_of_le {a b : Int32} (hlo : -2 ^ 31 ≤ a.toInt + b.toInt)
    (hhi : a.toInt + b.toInt < 2 ^ 31) : (a + b).toInt = a.toInt + b.toInt := by
  rw [Int32.toInt_add]
  exact Int.bmod_eq_of_le (by omega) (by omega)

theorem toInt_sub_of_le {a b : Int32} (hlo : -2 ^ 31 ≤ a.toInt - b.toInt)
    (hhi : a.toInt - b.toInt < 2 ^ 31) : (a - b).toInt = a.toInt - b.toInt := by
  rw [Int32.toInt_sub]
  exact Int.bmod_eq_of_le (by omega) (by omega)

theorem toInt_ofInt_of_le {n : Int} (hlo : -2 ^ 31 ≤ n) (hhi : n < 2 ^ 31) :
    (Int32.ofInt n).toInt = n := by
  rw [Int32.toInt_ofInt]
  exact Int.bmod_eq_of_le (by simp [Int32.size]; omega) (by simp [Int32.size]; omega)

end Word32
