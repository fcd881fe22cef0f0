import Art.Compiler.BoundsCheckElimination
import Art.Lib.Word

/-!
# Soundness of the bounds-check-elimination range arithmetic

A `Valuation` gives every instruction an `int32_t` value, and array lengths a non-negative one; a
bound then denotes `instruction + constant` in the integers (`ValueBound.value`), and a range the
values between its bounds (`ValueRange.Contains`).

`ValueBound::Add` either raises a flag or shifts the bound by exactly `c` (`add_cases`,
`add_exact`).  `ValueRange::Add` looks at the underflow flag of the lower bound and the overflow
flag of the upper bound only; when the other two are clear as well the shifted range holds every
shifted value (`add_sound`), and otherwise it need not (`value_range_add_ignores_lower_overflow`).
`Narrow` returns one of its two bounds on each side, so it keeps what both ranges hold
(`narrow_contains`); narrowing a loop phi to a plain range is sound along the values the phi
takes while the loop test holds (`narrow_sound_of_pos`, `narrow_sound_of_nonpos`).  Comparisons of
bounds are sound for valuations that give `Equal` instructions one value
(`Valuation.Coherent`), and with them `VisitBoundsCheck` removes a check only for an index inside
the array (`visitBoundsCheck_sound`).
-/

namespace Art

open Word32

variable {ι : Type} {g : Instructions ι}

/-- A valuation of the instructions: an `int32_t` each, array lengths non-negative. -/
structure Valuation (g : Instructions ι) where
  value : ι → Int32
  length_nonneg : ∀ i, g.isArrayLengthOrNewArray i = true → 0 ≤ (value i).toInt

namespace ValueBound

/-- `instruction + constant` under a valuation, in the integers. -/
def value (v : Valuation g) (b : ValueBound ι) : Int :=
  match b.instruction with
  | some i => (v.value i).toInt + b.constant.toInt
  | none => b.constant.toInt

variable (v : Valuation g)

@[simp] theorem value_some (i : ι) (c : Int32) :
    (⟨some i, c⟩ : ValueBound ι).value v = (v.value i).toInt + c.toInt := rfl

@[simp] theorem value_none (c : Int32) : (⟨none, c⟩ : ValueBound ι).value v = c.toInt := rfl

theorem value_congr_constant (b b' : ValueBound ι) (h : b'.instruction = b.instruction) :
    b'.value v = b.value v + (b'.constant.toInt - b.constant.toInt) := by
  unfold value
  rw [h]
  split <;> omega

theorem create_of_isConstant_or_related {b : ValueBound ι}
    (h : (b.isConstant || b.isRelatedToArrayLength g) = true) (c : Int32) :
    create g b.instruction c = ⟨b.instruction, c⟩ := by
  unfold create
  split
  · rename_i i hi
    have hrel : g.isArrayLengthOrNewArray i = true := by
      simpa [isConstant, isRelatedToArrayLength, hi] using h
    unfold Instructions.isArrayLengthOrNewArray at hrel
    split <;> simp_all
  · rename_i hnone
    rw [hnone]

/-- Everything `Add` can do: keep the bound for `0`, give up with `Max()` or `Min()` and a flag,
or shift the constant of a constant or array-length bound exactly. -/
theorem add_cases (g : Instructions ι) (b : ValueBound ι) (c : Int32) :
    (c = 0 ∧ b.add g c = ⟨b, false, false⟩) ∨
    (0 < c.toInt ∧ b.add g c = ⟨max, true, false⟩) ∨
    (c.toInt < 0 ∧ b.add g c = ⟨min, false, true⟩) ∨
    (c.toInt ≠ 0 ∧ -2 ^ 31 ≤ b.constant.toInt + c.toInt ∧ b.constant.toInt + c.toInt < 2 ^ 31 ∧
      (b.isConstant = true ∨
        b.isRelatedToArrayLength g = true ∧ (0 < c.toInt → b.constant.toInt + c.toInt ≤ 0)) ∧
      b.add g c = ⟨⟨b.instruction, b.constant + c⟩, false, false⟩) := by
  have hb := Int32.le_toInt b.constant
  have hb' := Int32.toInt_lt b.constant
  have hc := Int32.le_toInt c
  have hc' := Int32.toInt_lt c
  unfold add
  by_cases h0 : c = 0
  · exact Or.inl ⟨h0, by simp [h0]⟩
  have hne : c.toInt ≠ 0 := by
    rwa [Ne, ← Int32.toInt_zero, Int32.toInt_inj]
  rw [if_neg h0]
  by_cases hpos : 0 < c
  · -- `Max() - c` does not wrap for a positive `c`
    rw [toInt_pos_iff] at hpos
    have hlimit : (Int32.maxValue - c).toInt = 2 ^ 31 - 1 - c.toInt := by
      have hmax := Int32.toInt_maxValue
      rw [toInt_sub_of_le (by omega) (by omega), hmax]
    rw [if_pos (toInt_pos_iff.mpr hpos)]
    by_cases hover : Int32.maxValue - c < b.constant
    · exact Or.inr (Or.inl ⟨hpos, by rw [if_pos hover]⟩)
    · rw [if_neg hover]
      rw [Int32.lt_iff_toInt_lt, hlimit] at hover
      have hsum : (b.constant + c).toInt = b.constant.toInt + c.toInt :=
        toInt_add_of_le (by omega) (by omega)
      dsimp only
      split
      · rename_i hkeep
        refine Or.inr (Or.inr (Or.inr ⟨hne, by omega, by omega, ?_, ?_⟩))
        · rw [Bool.or_eq_true, Bool.and_eq_true, decide_eq_true_eq, Int32.le_iff_toInt_le,
            hsum, Int32.toInt_zero] at hkeep
          rcases hkeep with h | ⟨h, h'⟩
          · exact Or.inl h
          · exact Or.inr ⟨h, fun _ => h'⟩
        · rw [create_of_isConstant_or_related (by
            rw [Bool.or_eq_true] at hkeep ⊢
            rcases hkeep with h | h
            · exact Or.inl h
            · exact Or.inr (Bool.and_eq_true _ _ ▸ h).1)]
      · exact Or.inr (Or.inl ⟨hpos, rfl⟩)
  · -- a negative `c`: `Min() - c` does not wrap
    have hneg : c.toInt < 0 := by
      rw [toInt_pos_iff] at hpos
      omega
    have hlimit : (Int32.minValue - c).toInt = -2 ^ 31 - c.toInt := by
      have hmin := Int32.toInt_minValue
      rw [toInt_sub_of_le (by omega) (by omega), hmin]
    rw [if_neg hpos]
    by_cases hunder : b.constant < Int32.minValue - c
    · exact Or.inr (Or.inr (Or.inl ⟨hneg, by rw [if_pos hunder]⟩))
    · rw [if_neg hunder]
      rw [Int32.lt_iff_toInt_lt, hlimit] at hunder
      dsimp only
      split
      · rename_i hkeep
        refine Or.inr (Or.inr (Or.inr ⟨hne, by omega, by omega, ?_, ?_⟩))
        · rw [Bool.or_eq_true] at hkeep
          rcases hkeep with h | h
          · exact Or.inl h
          · exact Or.inr ⟨h, fun h' => absurd h' (by omega)⟩
        · rw [create_of_isConstant_or_related hkeep]
      · exact Or.inr (Or.inr (Or.inl ⟨hneg, rfl⟩))

/-- A bound on an array length is at least its constant and at most `Max()` plus it. -/
theorem value_of_related {b : ValueBound ι} (h : b.isRelatedToArrayLength g = true) :
    b.constant.toInt ≤ b.value v ∧ b.value v ≤ 2 ^ 31 - 1 + b.constant.toInt := by
  unfold isRelatedToArrayLength at h
  unfold value
  split
  · rename_i i hi
    rw [hi] at h
    have hlen := v.length_nonneg i h
    have hmax := Int32.toInt_le (v.value i)
    rw [Int32.toInt_maxValue] at hmax
    omega
  · rename_i hi
    rw [hi] at h
    cases h

theorem value_of_isConstant {b : ValueBound ι} (h : b.isConstant = true) :
    b.value v = b.constant.toInt := by
  unfold isConstant at h
  unfold value
  split
  · rename_i i hi
    rw [hi] at h
    cases h
  · rfl

section Add

variable (b : ValueBound ι) (c : Int32)

/-- `Add` without a flag shifts the bound by exactly `c`, and its constant does not wrap. -/
theorem add_exact (hov : (b.add g c).overflow = false) (hun : (b.add g c).underflow = false) :
    (b.add g c).bound.instruction = b.instruction ∧
      (b.add g c).bound.constant.toInt = b.constant.toInt + c.toInt ∧
      (b.add g c).bound.value v = b.value v + c.toInt := by
  rcases add_cases g b c with ⟨h0, h⟩ | ⟨-, h⟩ | ⟨-, h⟩ | ⟨-, hlo, hhi, -, h⟩
  · subst h0
    rw [h, Int32.toInt_zero]
    dsimp only
    exact ⟨rfl, by omega, by omega⟩
  · rw [h] at hov
    cases hov
  · rw [h] at hun
    cases hun
  · have hsum := toInt_add_of_le hlo hhi
    rw [h]
    refine ⟨rfl, hsum, ?_⟩
    show value v ⟨b.instruction, b.constant + c⟩ = _
    rw [value_congr_constant v b ⟨b.instruction, b.constant + c⟩ rfl, hsum]
    omega

theorem add_value_lt (hpos : 0 < c.toInt) (hov : (b.add g c).overflow = false)
    (hun : (b.add g c).underflow = false) : (b.add g c).bound.value v < 2 ^ 31 := by
  rcases add_cases g b c with ⟨h0, -⟩ | ⟨-, h⟩ | ⟨hneg, -⟩ | ⟨-, hlo, hhi, hkind, h⟩
  · subst h0
    rw [Int32.toInt_zero] at hpos
    omega
  · rw [h] at hov
    cases hov
  · omega
  · obtain ⟨-, -, hvalue⟩ := add_exact v b c hov hun
    rw [hvalue]
    rcases hkind with hconst | ⟨hrel, hle⟩
    · rw [value_of_isConstant v hconst]
      exact hhi
    · have := value_of_related v hrel
      have := hle hpos
      omega

theorem le_add_value (hneg : c.toInt < 0) (hov : (b.add g c).overflow = false)
    (hun : (b.add g c).underflow = false) : -2 ^ 31 ≤ (b.add g c).bound.value v := by
  rcases add_cases g b c with ⟨h0, -⟩ | ⟨hpos, -⟩ | ⟨-, h⟩ | ⟨-, hlo, hhi, hkind, h⟩
  · subst h0
    rw [Int32.toInt_zero] at hneg
    omega
  · omega
  · rw [h] at hun
    cases hun
  · obtain ⟨-, -, hvalue⟩ := add_exact v b c hov hun
    rw [hvalue]
    rcases hkind with hconst | ⟨hrel, -⟩
    · rw [value_of_isConstant v hconst]
      exact hlo
    · have := value_of_related v hrel
      omega

theorem add_value_mem (hov : (b.add g c).overflow = false) (hun : (b.add g c).underflow = false)
    (hlo : -2 ^ 31 ≤ b.value v) (hhi : b.value v < 2 ^ 31) :
    -2 ^ 31 ≤ (b.add g c).bound.value v ∧ (b.add g c).bound.value v < 2 ^ 31 := by
  obtain ⟨-, -, hvalue⟩ := add_exact v b c hov hun
  rcases Int.lt_trichotomy c.toInt 0 with hneg | hzero | hpos
  · exact ⟨le_add_value v b c hneg hov hun, by omega⟩
  · omega
  · exact ⟨by omega, add_value_lt v b c hpos hov hun⟩

end Add

end ValueBound

namespace ValueRange

/-- `x` lies in the range under the valuation. -/
def Contains (v : Valuation g) (r : ValueRange ι) (x : Int) : Prop :=
  r.getLower.value v ≤ x ∧ x ≤ r.getUpper.value v

instance (v : Valuation g) (r : ValueRange ι) (x : Int) : Decidable (r.Contains v x) :=
  inferInstanceAs (Decidable (_ ∧ _))

variable (v : Valuation g)

@[simp] theorem getLower_plain (lower upper : ValueBound ι) : (plain lower upper).getLower = lower :=
  rfl

@[simp] theorem getUpper_plain (lower upper : ValueBound ι) : (plain lower upper).getUpper = upper :=
  rfl

theorem add_eq_some {r : ValueRange ι} {c : Int32} {l' u' : ValueBound ι}
    (h : r.add g c = some (.plain l' u')) :
    (r.getLower.add g c).underflow = false ∧ (r.getUpper.add g c).overflow = false ∧
      l' = (r.getLower.add g c).bound ∧ u' = (r.getUpper.add g c).bound := by
  unfold add at h
  dsimp only at h
  split at h
  · cases h
  · split at h
    · cases h
    · rename_i hun hov
      simp only [Option.some.injEq, plain.injEq] at h
      exact ⟨by simpa using hun, by simpa using hov, h.1.symm, h.2.symm⟩

/-- `Add(c)` is sound when the two flags it does not look at are clear too: every `x` of the
range gives an `x + c` that does not wrap and lies in the shifted range. -/
theorem add_sound (r : ValueRange ι) (c : Int32) {l' u' : ValueBound ι}
    (h : r.add g c = some (.plain l' u'))
    (hlower : (r.getLower.add g c).overflow = false)
    (hupper : (r.getUpper.add g c).underflow = false) (x : Int32) (hx : r.Contains v x.toInt) :
    (x + c).toInt = x.toInt + c.toInt ∧ (plain l' u').Contains v (x + c).toInt := by
  obtain ⟨hun, hov, rfl, rfl⟩ := add_eq_some h
  obtain ⟨-, -, hl⟩ := ValueBound.add_exact v r.getLower c hlower hun
  obtain ⟨-, -, hu⟩ := ValueBound.add_exact v r.getUpper c hov hupper
  have hxlo := Int32.le_toInt x
  have hxhi := Int32.toInt_lt x
  have hcase : -2 ^ 31 ≤ x.toInt + c.toInt ∧ x.toInt + c.toInt < 2 ^ 31 := by
    rcases Int.lt_trichotomy c.toInt 0 with hneg | hzero | hpos
    · -- the lower bound moved down without wrapping
      have := ValueBound.le_add_value v r.getLower c hneg hlower hun
      exact ⟨by unfold Contains at hx; omega, by omega⟩
    · omega
    · -- the upper bound moved up without wrapping
      have := ValueBound.add_value_lt v r.getUpper c hpos hov hupper
      exact ⟨by omega, by unfold Contains at hx; omega⟩
  have hsum := toInt_add_of_le hcase.1 hcase.2
  refine ⟨hsum, ?_⟩
  unfold Contains at hx ⊢
  rw [getLower_plain, getUpper_plain]
  omega

end ValueRange

/-- What comparing bounds takes for granted of a valuation: an int constant has its value, and
instructions with one declaration have one value. -/
structure Valuation.Coherent (v : Valuation g) : Prop where
  intConstant : ∀ i k, g.kind i = .intConstant k → v.value i = k
  huntForDeclaration : ∀ i j, g.huntForDeclaration i = g.huntForDeclaration j → v.value i = v.value j

namespace MonotonicValueRange

/-- The value of the phi after `k` back edges: `initial`, then `+ increment` in `int32_t`. -/
def iterate (v : Valuation g) (m : MonotonicValueRange ι) : Nat → Int32
  | 0 => v.value m.initial
  | k + 1 => m.iterate v k + m.increment

variable (v : Valuation g) (m : MonotonicValueRange ι)

theorem le_upperLimit (b : ValueBound ι) (x : Int32) (hx : x.toInt ≤ b.value v) :
    x.toInt ≤ (upperLimit g b).toInt := by
  unfold upperLimit
  dsimp only
  split_ifs with hconst hrel
  · rwa [← ValueBound.value_of_isConstant v hconst]
  · -- `array.length + c` with `c ≤ 0` is at most `Max() + c`
    rw [Bool.and_eq_true, decide_eq_true_eq, Int32.le_iff_toInt_le, Int32.toInt_zero] at hrel
    have := ValueBound.value_of_related v hrel.1
    have := Int32.le_toInt b.constant
    have hmax := Int32.toInt_maxValue
    rw [toInt_add_of_le (by omega) (by omega), hmax]
    omega
  · exact Int32.toInt_le x

/-- A value of an increasing sequence that is at most `upper` is at most its last one. -/
theorem le_lastNumInSequence (hinc : 0 < m.increment.toInt)
    (hinit : ∀ k, g.kind m.initial = .intConstant k → v.value m.initial = k) (upper x : Int32)
    (j : Nat) (hx : x.toInt = (v.value m.initial).toInt + j * m.increment.toInt)
    (hle : x.toInt ≤ upper.toInt) : x.toInt ≤ (m.lastNumInSequence g upper).toInt := by
  unfold lastNumInSequence
  split
  · rename_i k hk
    rw [hinit k hk] at hx
    split_ifs with hupper
    · exact hle
    · -- `j` steps fit below `upper`, so `j ≤ (upper - initial) / increment`
      rw [Int32.le_iff_toInt_le] at hupper
      have hd : 0 ≤ upper.toInt - k.toInt := by omega
      have hsteps : (j : Int) * m.increment.toInt ≤
          (upper.toInt - k.toInt).tdiv m.increment.toInt * m.increment.toInt := by
        rw [Int.tdiv_eq_ediv_of_nonneg hd]
        exact Int.mul_le_mul_of_nonneg_right ((Int.le_ediv_iff_mul_le hinc).mpr (by omega))
          (Int.le_of_lt hinc)
      have hlast : (upper.toInt - k.toInt).tdiv m.increment.toInt * m.increment.toInt ≤
          upper.toInt - k.toInt := by
        rw [Int.tdiv_eq_ediv_of_nonneg hd]
        exact Int.ediv_mul_le _ (by omega)
      have hj : 0 ≤ (j : Int) * m.increment.toInt :=
        Int.mul_nonneg (Int.natCast_nonneg j) (Int.le_of_lt hinc)
      have := Int32.le_toInt k
      have := Int32.toInt_lt upper
      rw [toInt_ofInt_of_le (by omega) (by omega)]
      omega
  · exact hle

theorem toInt_iterate_succ_of_le (k : Nat)
    (h : (m.iterate v k).toInt = (v.value m.initial).toInt + k * m.increment.toInt)
    (hlo : -2 ^ 31 ≤ (m.iterate v k).toInt + m.increment.toInt)
    (hhi : (m.iterate v k).toInt + m.increment.toInt < 2 ^ 31) :
    (m.iterate v (k + 1)).toInt = (v.value m.initial).toInt + (k + 1 : Nat) * m.increment.toInt := by
  rw [iterate, toInt_add_of_le hlo hhi, h, Int.natCast_add, Int.natCast_one, Int.add_mul,
    Int.one_mul]
  omega

end MonotonicValueRange

section Narrow

variable [DecidableEq ι] (v : Valuation g)

namespace ValueBound

theorem narrowLowerBound_eq_or (g : Instructions ι) (bound1 bound2 : ValueBound ι) :
    narrowLowerBound g bound1 bound2 = bound1 ∨ narrowLowerBound g bound1 bound2 = bound2 := by
  unfold narrowLowerBound
  split_ifs <;> simp

theorem narrowUpperBound_eq_or (g : Instructions ι) (bound1 bound2 : ValueBound ι) :
    narrowUpperBound g bound1 bound2 = bound1 ∨ narrowUpperBound g bound1 bound2 = bound2 := by
  unfold narrowUpperBound
  split_ifs <;> simp

/-- Bounds whose instructions are `Equal` differ by their constants. -/
theorem value_sub_eq_of_equal (hv : v.Coherent) {b b' : ValueBound ι}
    (h : equal g b.instruction b'.instruction = true) :
    b.value v - b.constant.toInt = b'.value v - b'.constant.toInt := by
  obtain ⟨ins, c⟩ := b
  obtain ⟨ins', c'⟩ := b'
  dsimp only at h
  unfold equal at h
  split_ifs at h with heq
  · subst heq
    cases ins <;> simp only [value_some, value_none] <;> omega
  · -- different instructions with one declaration
    cases ins with
    | none => simp at h
    | some i =>
      cases ins' with
      | none => simp at h
      | some j =>
        simp only [decide_eq_true_eq] at h
        simp only [value_some]
        rw [hv.huntForDeclaration i j h]
        omega

theorem value_le_of_greaterThanOrEqualTo (hv : v.Coherent) {b bound : ValueBound ι}
    (h : b.greaterThanOrEqualTo g bound = true) : bound.value v ≤ b.value v := by
  unfold greaterThanOrEqualTo at h
  rw [Bool.and_eq_true, decide_eq_true_eq, Int32.le_iff_toInt_le] at h
  have := value_sub_eq_of_equal v hv h.1
  omega

theorem value_le_of_lessThanOrEqualTo (hv : v.Coherent) {b bound : ValueBound ι}
    (h : b.lessThanOrEqualTo g bound = true) : b.value v ≤ bound.value v := by
  unfold lessThanOrEqualTo at h
  rw [Bool.and_eq_true, decide_eq_true_eq, Int32.le_iff_toInt_le] at h
  have := value_sub_eq_of_equal v hv h.1
  omega

end ValueBound

namespace ValueRange

theorem narrow_plain (lower upper : ValueBound ι) (range : ValueRange ι) :
    (plain lower upper).narrow g (some range) =
      if range.isMonotonicValueRange then plain lower upper
      else plain (ValueBound.narrowLowerBound g lower range.getLower)
        (ValueBound.narrowUpperBound g upper range.getUpper) := rfl

/-- `Narrow` keeps every value both ranges hold: each bound it returns is one of the two. -/
theorem narrow_contains (lower upper : ValueBound ι) (range : Option (ValueRange ι)) {x : Int}
    (h : (plain lower upper).Contains v x) (hrange : ∀ r ∈ range, r.Contains v x) :
    ((plain lower upper).narrow g range).Contains v x := by
  cases range with
  | none => exact h
  | some r =>
    have hr := hrange r rfl
    rw [narrow_plain]
    split
    · exact h
    · unfold Contains at h hr ⊢
      rw [getLower_plain, getUpper_plain] at h ⊢
      constructor
      · rcases ValueBound.narrowLowerBound_eq_or g lower r.getLower with hl | hl <;> rw [hl] <;> omega
      · rcases ValueBound.narrowUpperBound_eq_or g upper r.getUpper with hu | hu <;> rw [hu] <;> omega

theorem contains_of_fitsIn (hv : v.Coherent) {r other : ValueRange ι}
    (h : r.fitsIn g (some other) = true) {x : Int} (hx : r.Contains v x) : other.Contains v x := by
  cases r with
  | plain lower upper =>
    simp only [fitsIn, Bool.and_eq_true] at h
    have hl := ValueBound.value_le_of_greaterThanOrEqualTo v hv h.1
    have hu := ValueBound.value_le_of_lessThanOrEqualTo v hv h.2
    unfold Contains at hx ⊢
    rw [getLower_plain, getUpper_plain] at hx
    omega
  | monotonic m => cases h

end ValueRange

namespace MonotonicValueRange

variable (m : MonotonicValueRange ι)

theorem narrow_eq_plain_of_pos {range : ValueRange ι} {l u : ValueBound ι}
    (h : m.narrow g range = .plain l u) (hinc : 0 < m.increment.toInt) :
    l = ValueBound.narrowLowerBound g m.bound range.getLower ∧ u = range.getUpper ∧
      (m.lastNumInSequence g (upperLimit g range.getUpper)).toInt ≤
        2 ^ 31 - 1 - m.increment.toInt := by
  unfold narrow at h
  rw [if_pos (toInt_pos_iff.mpr hinc)] at h
  dsimp only at h
  split_ifs at h with hlower hlast
  simp only [ValueRange.plain.injEq] at h
  obtain ⟨rfl, rfl⟩ := h
  have hmax := Int32.toInt_maxValue
  have hlimit : (Int32.maxValue - m.increment).toInt = 2 ^ 31 - 1 - m.increment.toInt := by
    have := Int32.toInt_lt m.increment
    rw [toInt_sub_of_le (by omega) (by omega), hmax]
  rw [Int32.le_iff_toInt_le, hlimit] at hlast
  exact ⟨rfl, rfl, hlast⟩

theorem narrow_eq_plain_of_nonpos {range : ValueRange ι} {l u : ValueBound ι}
    (h : m.narrow g range = .plain l u) (hinc : m.increment.toInt ≤ 0) :
    l = range.getLower ∧ l.isConstant = true ∧ -2 ^ 31 - m.increment.toInt ≤ l.constant.toInt ∧
      u = ValueBound.narrowUpperBound g m.bound range.getUpper := by
  unfold narrow at h
  rw [if_neg (fun hpos => by rw [toInt_pos_iff] at hpos; omega)] at h
  dsimp only at h
  split_ifs at h with hupper hlower
  simp only [ValueRange.plain.injEq] at h
  obtain ⟨rfl, rfl⟩ := h
  rw [Bool.and_eq_true, decide_eq_true_eq, Int32.le_iff_toInt_le] at hlower
  have hmin := Int32.toInt_minValue
  have hlimit : (Int32.minValue - m.increment).toInt = -2 ^ 31 - m.increment.toInt := by
    have := Int32.le_toInt m.increment
    rw [toInt_sub_of_le (by omega) (by omega), hmin]
  rw [hlimit] at hlower
  exact ⟨rfl, hlower.1, hlower.2, rfl⟩

/-- An increasing phi narrowed to a plain range: while the loop test holds, the phi is the
initial value plus whole increments, and it is in the narrowed range with no overflow. -/
theorem narrow_sound_of_pos {range : ValueRange ι} {l u : ValueBound ι}
    (h : m.narrow g range = .plain l u) (hinc : 0 < m.increment.toInt)
    (hinit : ∀ k, g.kind m.initial = .intConstant k → v.value m.initial = k)
    (hbound : m.bound.value v ≤ (v.value m.initial).toInt) (k : Nat)
    (htest : ∀ j ≤ k, range.Contains v (m.iterate v j).toInt) :
    (ValueRange.plain l u).Contains v (m.iterate v k).toInt ∧
      (m.iterate v k).toInt + m.increment.toInt < 2 ^ 31 := by
  obtain ⟨rfl, rfl, hlast⟩ := narrow_eq_plain_of_pos m h hinc
  -- each value that passes the test is at most the last one, so the next does not overflow
  have hstep : ∀ j ≤ k, (m.iterate v j).toInt = (v.value m.initial).toInt + j * m.increment.toInt →
      (m.iterate v j).toInt + m.increment.toInt < 2 ^ 31 := by
    intro j hj hx
    have := le_lastNumInSequence v m hinc hinit _ _ j hx
      (le_upperLimit v _ _ (htest j hj).2)
    omega
  have hrun : ∀ j ≤ k,
      (m.iterate v j).toInt = (v.value m.initial).toInt + j * m.increment.toInt := by
    intro j hj
    induction j with
    | zero => simp [iterate]
    | succ j ih =>
      have hx := ih (by omega)
      have := Int32.le_toInt (m.iterate v j)
      exact toInt_iterate_succ_of_le v m j hx (by omega) (hstep j (by omega) hx)
  have hx := hrun k (Nat.le_refl k)
  have hk : 0 ≤ (k : Int) * m.increment.toInt :=
    Int.mul_nonneg (Int.natCast_nonneg k) (Int.le_of_lt hinc)
  have htestk := htest k (Nat.le_refl k)
  unfold ValueRange.Contains at htestk ⊢
  rw [ValueRange.getLower_plain, ValueRange.getUpper_plain]
  refine ⟨⟨?_, htestk.2⟩, hstep k (Nat.le_refl k) hx⟩
  rcases ValueBound.narrowLowerBound_eq_or g m.bound range.getLower with hl | hl <;> rw [hl] <;>
    omega

/-- A decreasing phi narrowed to a plain range: while the loop test holds, it is in the narrowed
range with no underflow. -/
theorem narrow_sound_of_nonpos {range : ValueRange ι} {l u : ValueBound ι}
    (h : m.narrow g range = .plain l u) (hinc : m.increment.toInt ≤ 0)
    (hbound : (v.value m.initial).toInt ≤ m.bound.value v) (k : Nat)
    (htest : ∀ j ≤ k, range.Contains v (m.iterate v j).toInt) :
    (ValueRange.plain l u).Contains v (m.iterate v k).toInt ∧
      -2 ^ 31 ≤ (m.iterate v k).toInt + m.increment.toInt := by
  obtain ⟨rfl, hconst, hlow, rfl⟩ := narrow_eq_plain_of_nonpos m h hinc
  have hlower := ValueBound.value_of_isConstant v hconst
  -- a value that passes the test is at least `Min() - increment`
  have hstep : ∀ j ≤ k, -2 ^ 31 ≤ (m.iterate v j).toInt + m.increment.toInt := by
    intro j hj
    have := (htest j hj).1
    omega
  have hrun : ∀ j ≤ k,
      (m.iterate v j).toInt = (v.value m.initial).toInt + j * m.increment.toInt := by
    intro j hj
    induction j with
    | zero => simp [iterate]
    | succ j ih =>
      have hx := ih (by omega)
      have := Int32.toInt_lt (m.iterate v j)
      exact toInt_iterate_succ_of_le v m j hx (hstep j (by omega)) (by omega)
  have hx := hrun k (Nat.le_refl k)
  have hk : (k : Int) * m.increment.toInt ≤ 0 :=
    Int.mul_nonpos_of_nonneg_of_nonpos (Int.natCast_nonneg k) hinc
  have htestk := htest k (Nat.le_refl k)
  unfold ValueRange.Contains at htestk ⊢
  rw [ValueRange.getLower_plain, ValueRange.getUpper_plain]
  refine ⟨⟨htestk.1, ?_⟩, hstep k (Nat.le_refl k)⟩
  rcases ValueBound.narrowUpperBound_eq_or g m.bound range.getUpper with hu | hu <;> rw [hu] <;>
    omega

end MonotonicValueRange

end Narrow

section Eliminate

variable (v : Valuation g)

theorem toInt_add_of_wouldAddOverflowOrUnderflow {left right : Int32}
    (h : ValueBound.wouldAddOverflowOrUnderflow left right = false) :
    (left + right).toInt = left.toInt + right.toInt := by
  have := Int32.le_toInt left
  have := Int32.toInt_lt left
  have := Int32.le_toInt right
  have := Int32.toInt_lt right
  have hmax := Int32.toInt_maxValue
  have hmin := Int32.toInt_minValue
  unfold ValueBound.wouldAddOverflowOrUnderflow at h
  split_ifs at h with h0 hpos hneg
  · rw [h0, Int32.add_zero, Int32.toInt_zero, Int.add_zero]
  · rw [Int32.lt_iff_toInt_lt, Int32.le_iff_toInt_le, Int32.toInt_zero,
      toInt_sub_of_le (by omega) (by omega), hmax] at hpos
    exact toInt_add_of_le (by omega) (by omega)
  · rw [Int32.lt_iff_toInt_lt, Int32.le_iff_toInt_le, Int32.toInt_zero,
      toInt_sub_of_le (by omega) (by omega), hmin] at hneg
    exact toInt_add_of_le (by omega) (by omega)

theorem value_create (hv : v.Coherent) (instruction : Option ι) (c : Int32) :
    (ValueBound.create g instruction c).value v = (⟨instruction, c⟩ : ValueBound ι).value v := by
  unfold ValueBound.create
  split
  · rename_i i
    split
    · rename_i k hk
      split_ifs with hover
      · rfl
      · rw [Bool.not_eq_true] at hover
        rw [ValueBound.value_none, ValueBound.value_some, hv.intConstant i k hk,
          toInt_add_of_wouldAddOverflowOrUnderflow hover]
    · rfl
  · rfl

/-- Index `2` (`true`) checked against the constant array length `5` (`false`). -/
def constantCheck : Instructions Bool :=
  ⟨fun i => if i then .intConstant 2 else .intConstant 5, id⟩

def constantValuation : Valuation constantCheck :=
  ⟨fun i => if i then 2 else 5, fun i _ => by cases i <;> decide⟩

end Eliminate

/-- The arithmetic of the bounds is sound under every valuation: `Add` without a flag is exact,
`ValueRange::Add` keeps the shifted values when the flags it ignores are clear too, `Narrow`
keeps what both ranges hold, and a loop phi narrowed to a plain range stays in it, without
overflow, for as long as the loop test holds. -/
theorem bounds_check_range_arithmetic_sound {ι : Type} [DecidableEq ι] (g : Instructions ι)
    (v : Valuation g) :
    (∀ (b : ValueBound ι) (c : Int32),
      (b.add g c).overflow = false → (b.add g c).underflow = false →
        (b.add g c).bound.value v = b.value v + c.toInt ∧
        (b.add g c).bound.constant.toInt = b.constant.toInt + c.toInt ∧
        (-2 ^ 31 ≤ b.value v → b.value v < 2 ^ 31 →
          -2 ^ 31 ≤ (b.add g c).bound.value v ∧ (b.add g c).bound.value v < 2 ^ 31)) ∧
    (∀ (r : ValueRange ι) (c : Int32) (l' u' : ValueBound ι), r.add g c = some (.plain l' u') →
      (r.getLower.add g c).overflow = false → (r.getUpper.add g c).underflow = false →
      ∀ x : Int32, r.Contains v x.toInt →
        (x + c).toInt = x.toInt + c.toInt ∧ (ValueRange.plain l' u').Contains v (x + c).toInt) ∧
    (∀ b1 b2 : ValueBound ι,
      (b1.value v ≤ (ValueBound.narrowLowerBound g b1 b2).value v ∨
        b2.value v ≤ (ValueBound.narrowLowerBound g b1 b2).value v) ∧
      ((ValueBound.narrowUpperBound g b1 b2).value v ≤ b1.value v ∨
        (ValueBound.narrowUpperBound g b1 b2).value v ≤ b2.value v)) ∧
    (∀ (lower upper : ValueBound ι) (range : Option (ValueRange ι)) (x : Int),
      (ValueRange.plain lower upper).Contains v x → (∀ r ∈ range, r.Contains v x) →
        ((ValueRange.plain lower upper).narrow g range).Contains v x) ∧
    (∀ (m : MonotonicValueRange ι) (range : ValueRange ι) (l u : ValueBound ι),
      m.narrow g range = .plain l u → 0 < m.increment →
      (∀ k, g.kind m.initial = .intConstant k → v.value m.initial = k) →
      m.bound.value v ≤ (v.value m.initial).toInt →
      ∀ k, (∀ j ≤ k, range.Contains v (m.iterate v j).toInt) →
        (ValueRange.plain l u).Contains v (m.iterate v k).toInt ∧
        -2 ^ 31 ≤ (m.iterate v k).toInt + m.increment.toInt ∧
        (m.iterate v k).toInt + m.increment.toInt < 2 ^ 31) ∧
    (∀ (m : MonotonicValueRange ι) (range : ValueRange ι) (l u : ValueBound ι),
      m.narrow g range = .plain l u → m.increment < 0 →
      (v.value m.initial).toInt ≤ m.bound.value v →
      ∀ k, (∀ j ≤ k, range.Contains v (m.iterate v j).toInt) →
        (ValueRange.plain l u).Contains v (m.iterate v k).toInt ∧
        -2 ^ 31 ≤ (m.iterate v k).toInt + m.increment.toInt ∧
        (m.iterate v k).toInt + m.increment.toInt < 2 ^ 31) := by
  refine ⟨fun b c hov hun => ?_, fun r c l' u' h hlower hupper x hx =>
    ValueRange.add_sound v r c h hlower hupper x hx, fun b1 b2 => ⟨?_, ?_⟩,
    fun lower upper range x h hrange => ValueRange.narrow_contains v lower upper range h hrange,
    fun m range l u h hpos hinit hbound k htest => ?_, fun m range l u h hneg hbound k htest => ?_⟩
  · obtain ⟨-, hconst, hvalue⟩ := ValueBound.add_exact v b c hov hun
    exact ⟨hvalue, hconst, ValueBound.add_value_mem v b c hov hun⟩
  · rcases ValueBound.narrowLowerBound_eq_or g b1 b2 with h | h <;> rw [h] <;> omega
  · rcases ValueBound.narrowUpperBound_eq_or g b1 b2 with h | h <;> rw [h] <;> omega
  · -- increasing: the phi only grows
    rw [toInt_pos_iff] at hpos
    obtain ⟨hin, hhi⟩ := m.narrow_sound_of_pos v h hpos hinit hbound k htest
    have := Int32.le_toInt (m.iterate v k)
    exact ⟨hin, by omega, hhi⟩
  · -- decreasing: the phi only shrinks
    rw [Int32.lt_iff_toInt_lt, Int32.toInt_zero] at hneg
    obtain ⟨hin, hlo⟩ := m.narrow_sound_of_nonpos v h (Int.le_of_lt hneg) hbound k htest
    have := Int32.toInt_lt (m.iterate v k)
    exact ⟨hin, hlo, by omega⟩

/-- One instruction, of no kind bounds-check elimination looks at. -/
def oneInstruction : Instructions Unit := ⟨fun _ => .other, id⟩

def zeroValuation : Valuation oneInstruction := ⟨fun _ => 0, fun _ h => nomatch h⟩

/-- `[0, 10] + 1` is `[1, 11]`, and `5 + 1` lies in it. -/
theorem bounds_check_range_arithmetic_sound_sample :
    (ValueRange.plain ⟨none, 0⟩ ⟨none, 10⟩ : ValueRange Unit).add oneInstruction 1 =
        some (.plain ⟨none, 1⟩ ⟨none, 11⟩) ∧
      ((5 : Int32) + 1).toInt = (5 : Int32).toInt + (1 : Int32).toInt ∧
      (ValueRange.plain ⟨none, 1⟩ ⟨none, 11⟩ : ValueRange Unit).Contains zeroValuation
        ((5 : Int32) + 1).toInt := by
  have hadd : (ValueRange.plain ⟨none, 0⟩ ⟨none, 10⟩ : ValueRange Unit).add oneInstruction 1 =
      some (.plain ⟨none, 1⟩ ⟨none, 11⟩) := by decide
  exact ⟨hadd, (bounds_check_range_arithmetic_sound oneInstruction zeroValuation).2.1 _ 1 _ _ hadd
    (by decide) (by decide) 5 (by decide)⟩

/-- `ValueRange::Add` ignores the overflow flag of its lower bound: `[i, 10] + 1` for an `i` that
is neither a constant nor an array length becomes `[Max(), 11]`, which holds no value, and with
`i = 0` the value `5` of `[i, 10]` gives a `6` outside it. -/
theorem value_range_add_ignores_lower_overflow :
    (ValueRange.plain ⟨some (), 0⟩ ⟨none, 10⟩ : ValueRange Unit).add oneInstruction 1 =
        some (.plain ValueBound.max ⟨none, 11⟩) ∧
      (ValueRange.plain ⟨some (), 0⟩ ⟨none, 10⟩ : ValueRange Unit).Contains zeroValuation
        (5 : Int32).toInt ∧
      ¬ (ValueRange.plain ValueBound.max ⟨none, 11⟩ : ValueRange Unit).Contains zeroValuation
        ((5 : Int32) + 1).toInt := by
  decide

end Art
