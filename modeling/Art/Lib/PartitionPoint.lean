import Mathlib

/-!
# `std::partition_point` over a range of indices

`partitionPoint pred first len` is libc++'s `std::partition_point` on the indices
`[first, first + len)`: it halves the range, keeps the half after the middle when `pred` holds
there and the half before it otherwise.  When `pred` holds on a prefix of the range and fails on
the rest (`Partitioned`), it returns the end of that prefix (`partitionPoint_spec`): `pred` holds
on every index before the result and fails at the result, unless the result is the end of the
range.
-/

namespace Search

/-- `std::partition_point(first, first + len, pred)`: the middle is `m = first + l2` with
`l2 = len / 2`. -/
def partitionPoint (pred : Nat → Bool) (first len : Nat) : Nat :=
  if h : len = 0 then first
  else if pred (first + len / 2) then partitionPoint pred (first + len / 2 + 1) (len - (len / 2 + 1))
  else partitionPoint pred first (len / 2)
termination_by len
decreasing_by all_goals omega

/-- `pred` holds on a prefix of `[first, first + len)` and fails on the rest. -/
def Partitioned (pred : Nat → Bool) (first len : Nat) : Prop :=
  ∀ i j, first ≤ i → i ≤ j → j < first + len → pred j = true → pred i = true

variable {pred : Nat → Bool}

/-- A prefix-partitioned range stays so when cut to a sub-range. -/
theorem Partitioned.sub {first len first' len' : Nat} (h : Partitioned pred first len)
    (hlo : first ≤ first') (hhi : first' + len' ≤ first + len) : Partitioned pred first' len' :=
  fun i j hi hij hj hp => h i j (Nat.le_trans hlo hi) hij (by omega) hp

/-- The result is the end of the prefix on which `pred` holds. -/
theorem partitionPoint_spec {first len : Nat} (h : Partitioned pred first len) :
    first ≤ partitionPoint pred first len ∧ partitionPoint pred first len ≤ first + len ∧
      (∀ i, first ≤ i → i < partitionPoint pred first len → pred i = true) ∧
      (partitionPoint pred first len < first + len →
        pred (partitionPoint pred first len) = false) := by
  induction first, len using partitionPoint.induct pred with
  | case1 first =>
    rw [partitionPoint, dif_pos rfl]
    exact ⟨Nat.le_refl _, by omega, fun i h1 h2 => absurd h2 (by omega), fun h => absurd h (by omega)⟩
  | case2 first len hlen hm ih =>
    -- `pred` holds in the middle: the answer is after it
    rw [partitionPoint, dif_neg hlen, if_pos hm]
    obtain ⟨h1, h2, h3, h4⟩ := ih (h.sub (by omega) (by omega))
    refine ⟨by omega, by omega, fun i hi hir => ?_, fun hr => h4 (by omega)⟩
    rcases Nat.lt_or_ge i (first + len / 2 + 1) with hlt | hge
    · exact h i (first + len / 2) hi (by omega) (by omega) hm
    · exact h3 i hge hir
  | case3 first len hlen hm ih =>
    -- `pred` fails in the middle: the answer is at it or before it
    rw [partitionPoint, dif_neg hlen, if_neg hm]
    obtain ⟨h1, h2, h3, h4⟩ := ih (h.sub (Nat.le_refl _) (by omega))
    refine ⟨h1, by omega, h3, fun hr => ?_⟩
    rcases Nat.lt_or_ge (partitionPoint pred first (len / 2)) (first + len / 2) with hlt | hge
    · exact h4 hlt
    · rw [show partitionPoint pred first (len / 2) = first + len / 2 by omega]
      exact Bool.eq_false_iff.2 hm

end Search
