import Art.Runtime.LockWord
import Art.Base.BitUtils

/-!
# The lock word's format

Every getter of a lock word reads one field of it (`bitFieldExtract`), and `getState_eq` says what
`GetState()` answers in terms of the fields: the word is unlocked when its owner, count and state
are `0`, and its GC state too without a read barrier; otherwise the state field decides.  Each
constructor's fields are the values it was given (`thinValue_fields`, `taggedValue_fields`), and a
word is determined by its fields (`eq_of_thin_fields`, `eq_of_hash_fields`).

Over the fields lies the abstract lock word, `View`: a state with the fields that state gives
meaning to.  The format is a round trip both ways: a valid view is built by the constructor of its
state into a word whose view it is (`view_encode`), and a word that passes
`CheckReadBarrierState()` is rebuilt from its view (`encode_view`).  A forwarding address comes
back from its word exactly when it is aligned to objects and below `2 ^ 32`, which the constructor's
`DCHECK` of alignment to 4 does not ensure (`fromForwardingAddress_roundTrip`).  With a read barrier
the GC state is invisible to the rest: its setters change nothing else a word says
(`gcStateSetters_view`).
-/

namespace Art

namespace LockWord

variable {rb : Bool}

/-! ## Getters are fields -/

section Fields

variable (lw : LockWord)

theorem thinLockOwner_eq : lw.thinLockOwner = bitFieldExtract lw.value 0 16 := rfl

theorem thinLockCount_eq : lw.thinLockCount = bitFieldExtract lw.value 16 12 := rfl

theorem fatLockMonitorId_eq : lw.fatLockMonitorId = bitFieldExtract lw.value 0 28 := rfl

theorem getHashCode_eq : lw.getHashCode = (bitFieldExtract lw.value 0 28).toInt := rfl

theorem readBarrierState_eq : lw.readBarrierState = bitFieldExtract lw.value 28 1 := rfl

theorem markBitState_eq : lw.markBitState = bitFieldExtract lw.value 29 1 := rfl

theorem kGCStateMaskShifted_eq : kGCStateMaskShifted = maskLeastSignificant 32 2 <<< 28 := by decide

theorem gcState_eq : lw.gcState = bitFieldExtract lw.value 28 2 := by
  apply BitVec.eq_of_getLsbD_eq
  intro i hi
  simp only [gcState, kGCStateMaskShifted_eq, kGCStateShift, kReadBarrierStateShift,
    kThinLockCountSize, kThinLockCountShift, kThinLockOwnerSize, kThinLockOwnerShift, kStateSize,
    kReadBarrierStateSize, kMarkBitStateSize, BitVec.getLsbD_ushiftRight, BitVec.getLsbD_and,
    BitVec.getLsbD_shiftLeft, getLsbD_maskLeastSignificant, getLsbD_bitFieldExtract]
  by_cases h : i < 2
  · simp [h, show 28 + i < 32 by omega]
  · simp [h]

/-- `GetValueWithoutGCState()` clears the GC state's field. -/
theorem getValueWithoutGCState_eq : lw.getValueWithoutGCState = bitFieldClear lw.value 28 2 := by
  simp [getValueWithoutGCState, kGCStateMaskShiftedToggled, kGCStateMaskShifted_eq, bitFieldClear]

end Fields

/-! ## Words with the same fields -/

/-- The owner, the count, the GC state and the state cover the word. -/
theorem eq_of_thin_fields {x y : BitVec 32}
    (h₀ : bitFieldExtract x 0 16 = bitFieldExtract y 0 16)
    (h₁ : bitFieldExtract x 16 12 = bitFieldExtract y 16 12)
    (h₂ : bitFieldExtract x 28 2 = bitFieldExtract y 28 2)
    (h₃ : bitFieldExtract x 30 2 = bitFieldExtract y 30 2) : x = y := by
  apply BitVec.eq_of_getLsbD_eq
  intro i hi
  rcases (by omega : i < 16 ∨ 16 ≤ i ∧ i < 28 ∨ 28 ≤ i ∧ i < 30 ∨ 30 ≤ i) with
    h | h | h | h
  · exact getLsbD_eq_of_bitFieldExtract_eq h₀ (by omega) (by omega)
  · exact getLsbD_eq_of_bitFieldExtract_eq h₁ h.1 (by omega)
  · exact getLsbD_eq_of_bitFieldExtract_eq h₂ h.1 (by omega)
  · exact getLsbD_eq_of_bitFieldExtract_eq h₃ h (by omega)

/-- The hash code (or the monitor id), the GC state and the state cover the word. -/
theorem eq_of_hash_fields {x y : BitVec 32} (h₀ : bitFieldExtract x 0 28 = bitFieldExtract y 0 28)
    (h₂ : bitFieldExtract x 28 2 = bitFieldExtract y 28 2)
      (h₃ : bitFieldExtract x 30 2 = bitFieldExtract y 30 2) : x = y := by
  apply BitVec.eq_of_getLsbD_eq
  intro i hi
  rcases (by omega : i < 28 ∨ 28 ≤ i ∧ i < 30 ∨ 30 ≤ i) with h | h | h
  · exact getLsbD_eq_of_bitFieldExtract_eq h₀ (by omega) (by omega)
  · exact getLsbD_eq_of_bitFieldExtract_eq h₂ h.1 (by omega)
  · exact getLsbD_eq_of_bitFieldExtract_eq h₃ h (by omega)

theorem eq_zero_iff_fields (x : BitVec 32) :
    x = 0 ↔ bitFieldExtract x 0 16 = 0 ∧ bitFieldExtract x 16 12 = 0 ∧ bitFieldExtract x 28 2 = 0 ∧
      bitFieldExtract x 30 2 = 0 := by
  constructor
  · rintro rfl
    simp
  · rintro ⟨h₀, h₁, h₂, h₃⟩
    exact eq_of_thin_fields (by simpa) (by simpa) (by simpa) (by simpa)

/-- Outside its GC state a word is `0` when its owner, count and state are. -/
theorem bitFieldClear_gcState_eq_zero_iff (x : BitVec 32) :
    bitFieldClear x 28 2 = 0 ↔ bitFieldExtract x 0 16 = 0 ∧ bitFieldExtract x 16 12 = 0 ∧
      bitFieldExtract x 30 2 = 0 := by
  have hd₀ : bitFieldExtract (bitFieldClear x 28 2) 0 16 = bitFieldExtract x 0 16 :=
    bitFieldExtract_bitFieldClear_of_disjoint x (.inr (by decide))
  have hd₁ : bitFieldExtract (bitFieldClear x 28 2) 16 12 = bitFieldExtract x 16 12 :=
    bitFieldExtract_bitFieldClear_of_disjoint x (.inr (by decide))
  have hd₂ : bitFieldExtract (bitFieldClear x 28 2) 28 2 = 0 :=
    bitFieldExtract_bitFieldClear_of_le x le_rfl le_rfl
  have hd₃ : bitFieldExtract (bitFieldClear x 28 2) 30 2 = bitFieldExtract x 30 2 :=
    bitFieldExtract_bitFieldClear_of_disjoint x (.inl (by decide))
  rw [eq_zero_iff_fields, hd₀, hd₁, hd₂, hd₃]
  simp

/-! ## `GetState` -/

/-- The fields `GetState()` reads as unlocked: no owner, no count, the thin state, and without a
read barrier no GC state either. -/
def UnlockedFields (rb : Bool) (x : BitVec 32) : Prop :=
  bitFieldExtract x 0 16 = 0 ∧ bitFieldExtract x 16 12 = 0 ∧ bitFieldExtract x 30 2 = 0 ∧
      (rb = true ∨ bitFieldExtract x 28 2 = 0)

instance (x : BitVec 32) : Decidable (UnlockedFields rb x) :=
  inferInstanceAs (Decidable (_ ∧ _))

/-- `GetState()` by the fields of the word. -/
theorem getState_eq (lw : LockWord) : lw.getState rb =
    if UnlockedFields rb lw.value then .unlocked
    else if bitFieldExtract lw.value 30 2 = 0 then .thinLocked
    else if bitFieldExtract lw.value 30 2 = 2 then .hashCode
    else if bitFieldExtract lw.value 30 2 = 3 then .forwardingAddress
    else .fatLocked := by
  have hstate : (lw.value >>> kStateShift) &&& kStateMask = bitFieldExtract lw.value 30 2 := rfl
  have hmask : lw.value &&& kGCStateMaskShiftedToggled = bitFieldClear lw.value 28 2 :=
    getValueWithoutGCState_eq lw
  -- the unlocked test, in either configuration, is a test on the fields
  have hunlocked :
      ((!rb && lw.value == 0) || (rb && (lw.value &&& kGCStateMaskShiftedToggled) == 0))
      = decide (UnlockedFields rb lw.value) := by
    rw [hmask, Bool.eq_iff_iff, decide_eq_true_iff, UnlockedFields]
    cases rb
    · simp only [Bool.not_false, Bool.true_and, Bool.false_and, Bool.or_false, beq_iff_eq,
        Bool.false_eq_true, false_or]
      rw [eq_zero_iff_fields]
      tauto
    · simp only [Bool.not_true, Bool.false_and, Bool.true_and, Bool.false_or, beq_iff_eq,
        true_or, and_true]
      exact bitFieldClear_gcState_eq_zero_iff _
  unfold getState
  rw [hunlocked]
  by_cases hu : UnlockedFields rb lw.value
  · rw [if_pos hu, decide_eq_true hu, if_pos rfl]
  · rw [if_neg hu, decide_eq_false hu, if_neg Bool.false_ne_true]
    exact hstate ▸ rfl

section States

variable {lw : LockWord}

theorem getState_eq_unlocked_iff : lw.getState rb = .unlocked ↔ UnlockedFields rb lw.value := by
  rw [getState_eq]
  split_ifs <;> simp_all

theorem getState_eq_thinLocked_iff :
    lw.getState rb = .thinLocked ↔ bitFieldExtract lw.value 30 2 = 0 ∧
      ¬UnlockedFields rb lw.value := by
  rw [getState_eq]
  split_ifs <;> simp_all

theorem getState_eq_hashCode_iff : lw.getState rb = .hashCode ↔
    bitFieldExtract lw.value 30 2 = 2 := by
  rw [getState_eq]
  split_ifs with h₁ h₂ h₃ <;> simp_all [UnlockedFields]

theorem getState_eq_forwardingAddress_iff :
    lw.getState rb = .forwardingAddress ↔ bitFieldExtract lw.value 30 2 = 3 := by
  rw [getState_eq]
  split_ifs with h₁ h₂ h₃ h₄ <;> simp_all [UnlockedFields]

/-- The two state bits have no value but the four states. -/
theorem getState_eq_fatLocked_iff : lw.getState rb = .fatLocked ↔
    bitFieldExtract lw.value 30 2 = 1 := by
  have hlt := toNat_bitFieldExtract_lt lw.value 30 2
  rw [getState_eq]
  split_ifs with h₁ h₂ h₃ h₄
  · simp only [false_iff]
    rw [h₁.2.2.1]
    decide
  · simp only [false_iff, h₂]
    decide
  · simp only [false_iff, h₃]
    decide
  · simp only [false_iff, h₄]
    decide
  · simp only [true_iff]
    bv_omega

end States

/-- `CheckReadBarrierState()` by the fields of the word: with a read barrier every read barrier
state is a gray state or not. -/
theorem checkReadBarrierState_eq (lw : LockWord) : checkReadBarrierState rb lw =
    (bitFieldExtract lw.value 30 2 == 3 || rb || bitFieldExtract lw.value 28 1 == 0) := by
  have hrb : bitFieldExtract lw.value 28 1 = 0 ∨ bitFieldExtract lw.value 28 1 = 1 := by
    have := toNat_bitFieldExtract_lt lw.value 28 1
    bv_omega
  have hstate : (lw.value >>> kStateShift) &&& kStateMask = bitFieldExtract lw.value 30 2 := rfl
  unfold checkReadBarrierState
  rw [hstate, readBarrierState_eq]
  cases rb
  · simp only [Bool.not_false, if_true, Bool.or_false]
    rfl
  · have hgray : (bitFieldExtract lw.value 28 1 == ReadBarrier.kNonGrayState ||
        bitFieldExtract lw.value 28 1 == ReadBarrier.kGrayState) = true := by
      rcases hrb with h | h <;> rw [h] <;> decide
    simp only [Bool.not_true, Bool.false_eq_true, if_false, hgray, Bool.or_true, Bool.true_or]

/-! ## The constructors -/

section Constructors

variable {lw : LockWord}

theorem ofValue_eq_some {v : BitVec 32} :
    ofValue rb v = some lw ↔ lw = ⟨v⟩ ∧ checkReadBarrierState rb ⟨v⟩ := by
  unfold ofValue
  by_cases h : checkReadBarrierState rb ⟨v⟩
  · rw [if_pos h, Option.some_inj]
    exact ⟨fun h' => ⟨h'.symm, h⟩, fun h' => h'.1.symm⟩
  · rw [if_neg h]
    simp [h]

/-- `CHECK_LE` against a mask of `n` bits passes the values that fit them. -/
theorem gt_maskLeastSignificant_iff {x : BitVec 32} {n : Nat} (hn : n < 32) :
    x > maskLeastSignificant 32 n ↔ ¬x.toNat < 2 ^ n := by
  rw [← le_maskLeastSignificant_iff hn, gt_iff_lt, BitVec.not_le]

theorem gt_ite_eq_some {x m : BitVec 32} {n : Nat} (hm : m = maskLeastSignificant 32 n)
    (hn : n < 32)
    {o : Option LockWord} : (if x > m then none else o) = some lw ↔ x.toNat < 2 ^ n ∧
      o = some lw := by
  subst hm
  by_cases h : x.toNat < 2 ^ n
  · rw [if_neg (by rwa [gt_maskLeastSignificant_iff hn, not_not])]
    exact ⟨fun h' => ⟨h, h'⟩, And.right⟩
  · rw [if_pos ((gt_maskLeastSignificant_iff hn).2 h)]
    simp only [reduceCtorEq, false_iff, not_and]
    exact fun h' => absurd h' h

theorem fromThinLockId_eq_some {t c g : BitVec 32} :
    fromThinLockId rb t c g = some lw ↔ t.toNat < 2 ^ 16 ∧ c.toNat < 2 ^ 12 ∧
      lw = ⟨t ||| c <<< 16 ||| g <<< 28⟩ ∧
        checkReadBarrierState rb ⟨t ||| c <<< 16 ||| g <<< 28⟩ := by
  have hv : (t <<< kThinLockOwnerShift) ||| (c <<< kThinLockCountShift) |||
      (g <<< kGCStateShift) |||
      (kStateThinOrUnlocked <<< kStateShift) = t ||| c <<< 16 ||| g <<< 28 := by
    rw [show kStateThinOrUnlocked = 0#32 from rfl]
    simp only [kThinLockOwnerShift, BitVec.shiftLeft_zero, BitVec.zero_shiftLeft, BitVec.or_zero]
    rfl
  unfold fromThinLockId
  rw [hv, gt_ite_eq_some (m := kThinLockMaxOwner) (n := 16) rfl (by decide),
    gt_ite_eq_some (m := kThinLockMaxCount) (n := 12) rfl (by decide),
    ofValue_eq_some]

theorem fromHashCode_eq_some {h g : BitVec 32} :
    fromHashCode rb h g = some lw ↔ h.toNat < 2 ^ 28 ∧ lw = ⟨h ||| g <<< 28 ||| kStateHash <<< 30⟩ ∧
      checkReadBarrierState rb ⟨h ||| g <<< 28 ||| kStateHash <<< 30⟩ := by
  have hv : (h <<< kHashShift) ||| (g <<< kGCStateShift) ||| (kStateHash <<< kStateShift) =
      h ||| g <<< 28 ||| kStateHash <<< 30 := by
    simp only [kHashShift, BitVec.shiftLeft_zero]
    rfl
  unfold fromHashCode
  rw [hv, gt_ite_eq_some (m := kMaxHash) (n := 28) rfl (by decide), ofValue_eq_some]

theorem fromDefault_eq_some {g : BitVec 32} :
    fromDefault rb g = some lw ↔ lw = ⟨g <<< 28⟩ ∧ checkReadBarrierState rb ⟨g <<< 28⟩ :=
  ofValue_eq_some

theorem fromMonitor_eq_some {m g : BitVec 32} :
    fromMonitor rb m g = some lw ↔ lw = ⟨m ||| g <<< 28 ||| kStateFat <<< 30⟩ ∧
      lw.getState rb = .fatLocked ∧ lw.fatLockMonitorId = m ∧ m.toNat < 2 ^ 28 ∧
      checkReadBarrierState rb lw := by
  have hm : m > kMaxMonitorId ↔ ¬m.toNat < 2 ^ 28 :=
    gt_maskLeastSignificant_iff (n := 28) (by decide)
  unfold fromMonitor
  dsimp only
  rw [show kGCStateShift = 28 from rfl, show kStateShift = 30 from rfl]
  constructor
  · intro h
    split_ifs at h with h₁ h₂ h₃ h₄
    cases h
    exact ⟨rfl, not_not.1 h₁, not_not.1 h₂, not_not.1 (hm.not.1 h₃), by simpa using h₄⟩
  · rintro ⟨rfl, h₁, h₂, h₃, h₄⟩
    rw [if_neg (not_not.2 h₁), if_neg (not_not.2 h₂), if_neg (hm.not.2 (not_not.2 h₃)),
      if_neg (by simpa using h₄)]

end Constructors

/-! ## The fields of the words the constructors build -/

section Values

variable {x g s : BitVec 32}

theorem thinValue_fields {t c : BitVec 32} (ht : t.toNat < 2 ^ 16) (hc : c.toNat < 2 ^ 12)
    (hg : g.toNat < 2 ^ 2) :
    bitFieldExtract (t ||| c <<< 16 ||| g <<< 28) 0 16 = t ∧
      bitFieldExtract (t ||| c <<< 16 ||| g <<< 28) 16 12 = c ∧
      bitFieldExtract (t ||| c <<< 16 ||| g <<< 28) 28 2 = g ∧
        bitFieldExtract (t ||| c <<< 16 ||| g <<< 28) 30 2 = 0 := by
  refine ⟨?_, ?_, ?_, ?_⟩ <;>
  simp (disch := first | assumption | omega) only
    [bitFieldExtract_or, bitFieldExtract_of_lt, bitFieldExtract_of_disjoint,
      bitFieldExtract_shiftLeft, bitFieldExtract_shiftLeft_of_disjoint] <;>
  simp

/-- A hash code or a monitor id, a GC state and a state. -/
theorem taggedValue_fields (hx : x.toNat < 2 ^ 28) (hg : g.toNat < 2 ^ 2) (hs : s.toNat < 2 ^ 2) :
    bitFieldExtract (x ||| g <<< 28 ||| s <<< 30) 0 28 = x ∧
      bitFieldExtract (x ||| g <<< 28 ||| s <<< 30) 28 2 = g ∧
      bitFieldExtract (x ||| g <<< 28 ||| s <<< 30) 30 2 = s := by
  refine ⟨?_, ?_, ?_⟩ <;>
  simp (disch := first | assumption | omega) only
    [bitFieldExtract_or, bitFieldExtract_of_lt, bitFieldExtract_of_disjoint,
      bitFieldExtract_shiftLeft, bitFieldExtract_shiftLeft_of_disjoint] <;>
  simp

theorem defaultValue_fields (hg : g.toNat < 2 ^ 2) :
    bitFieldExtract (g <<< 28) 0 16 = 0 ∧ bitFieldExtract (g <<< 28) 16 12 = 0 ∧
      bitFieldExtract (g <<< 28) 28 2 = g ∧
      bitFieldExtract (g <<< 28) 30 2 = 0 := by
  refine ⟨?_, ?_, ?_, ?_⟩ <;>
  simp (disch := first | assumption | omega) only
    [bitFieldExtract_shiftLeft, bitFieldExtract_shiftLeft_of_disjoint] <;>
  rfl

end Values


/-! ## Forwarding addresses -/

section Forwarding

variable {a : BitVec 64} {lw : LockWord}

/-- The bits of the word `FromForwardingAddress(target)` builds: the target shifted right by the
object alignment, under the forwarding state, cut to 32 bits. -/
theorem getLsbD_forwardingValue (a : BitVec 64) (i : Nat) :
    ((a >>> kForwardingAddressShift |||
      kStateForwardingAddressShifted.setWidth 64).setWidth 32).getLsbD
      i = (decide (i < 32) && (decide (30 ≤ i) || a.getLsbD (3 + i))) := by
  have hk : kStateForwardingAddressShifted.setWidth 64 = maskLeastSignificant 64 2 <<< 30 := by
    decide
  rw [hk]
  simp only [BitVec.getLsbD_setWidth, BitVec.getLsbD_or, BitVec.getLsbD_ushiftRight,
    BitVec.getLsbD_shiftLeft, getLsbD_maskLeastSignificant, kForwardingAddressShift,
      kObjectAlignmentShift]
  by_cases h : i < 32
  · by_cases h' : 30 ≤ i
    · simp [h, h', show i < 64 by omega]
      omega
    · simp [h, h', show i < 30 by omega]
  · simp [h]

theorem forwardingValue_state (a : BitVec 64) :
    bitFieldExtract ((a >>> kForwardingAddressShift |||
      kStateForwardingAddressShifted.setWidth 64).setWidth 32)
      30 2 = 3 := by
  apply BitVec.eq_of_getLsbD_eq
  intro i hi
  rw [getLsbD_bitFieldExtract, getLsbD_forwardingValue]
  by_cases h : i < 2
  · rcases (by omega : i = 0 ∨ i = 1) with rfl | rfl <;> simp
  · simp [h, BitVec.getLsbD_eq_false_of_toNat_lt (x := 3#32) (n := 2) (j := i) (by decide)
    (by omega)]

/-- `DCHECK_ALIGNED(target, 1 << kStateSize)` is the only check: the forwarding state passes
`CheckReadBarrierState()`. -/
theorem fromForwardingAddress_eq_some : fromForwardingAddress rb a = some lw ↔
    a.toNat % 4 = 0 ∧
      lw = ⟨(a >>> kForwardingAddressShift |||
        kStateForwardingAddressShifted.setWidth 64).setWidth 32⟩ := by
  have hcheck : checkReadBarrierState rb
      ⟨(a >>> kForwardingAddressShift |||
        kStateForwardingAddressShifted.setWidth 64).setWidth 32⟩ := by
    rw [checkReadBarrierState_eq, forwardingValue_state]
    rfl
  unfold fromForwardingAddress
  rw [show 2 ^ kStateSize = 4 from rfl]
  by_cases h : a.toNat % 4 = 0
  · rw [if_neg (not_not.2 h), ofValue_eq_some]
    exact ⟨fun h' => ⟨h, h'.1⟩, fun h' => ⟨h'.2, hcheck⟩⟩
  · rw [if_pos h]
    simp [h]

/-- `ForwardingAddress()` gives back the address with its low three bits and all bits from bit 32
on cleared. -/
theorem forwardingAddress_of_fromForwardingAddress (h : fromForwardingAddress rb a = some lw) :
    lw.forwardingAddress = a &&& 0xFFFFFFF8#64 := by
  obtain ⟨-, hlw⟩ := fromForwardingAddress_eq_some.1 h
  have hbit : ∀ i, lw.value.getLsbD i =
      (decide (i < 32) && (decide (30 ≤ i) || a.getLsbD (3 + i))) :=
    fun i => by rw [hlw, getLsbD_forwardingValue]
  have hmask : (0xFFFFFFF8#64) = maskLeastSignificant 64 29 <<< 3 := by decide
  apply BitVec.eq_of_getLsbD_eq
  intro i hi
  simp only [forwardingAddress, BitVec.getLsbD_setWidth, BitVec.getLsbD_shiftLeft, hbit,
    BitVec.getLsbD_and, kForwardingAddressShift, kObjectAlignmentShift, hmask,
      getLsbD_maskLeastSignificant]
  by_cases h₁ : i < 3
  · simp [h₁]
  · by_cases h₂ : i < 32
    · simp [h₁, h₂, hi, show 3 + (i - 3) = i by omega, show ¬30 ≤ i - 3 by omega,
        show i - 3 < 29 by omega, show i - 3 < 32 by omega, show i - 3 < 64 by omega]
    · simp [h₂, show ¬i - 3 < 29 by omega]

/-- Clearing those bits keeps an address that is aligned to objects and below `2 ^ 32`. -/
theorem and_eq_self_iff (a : BitVec 64) :
    a &&& 0xFFFFFFF8#64 = a ↔ a.toNat % 8 = 0 ∧ a.toNat < 2 ^ 32 := by
  have hmask : (0xFFFFFFF8#64) = maskLeastSignificant 64 29 <<< 3 := by decide
  have hbit : ∀ i, (a &&& 0xFFFFFFF8#64).getLsbD i = (a.getLsbD i && decide (3 ≤ i ∧ i < 32)) := by
    intro i
    rw [hmask]
    simp only [BitVec.getLsbD_and, BitVec.getLsbD_shiftLeft, getLsbD_maskLeastSignificant]
    by_cases hlo : 3 ≤ i
    · by_cases hhi : i < 32
      · simp [hlo, hhi, show ¬i < 3 by omega, show i - 3 < 29 by omega, show i - 3 < 64 by omega,
          show i < 64 by omega]
      · simp [hhi, show ¬i - 3 < 29 by omega]
    · simp [hlo, show i < 3 by omega]
  rw [show (8 : Nat) = 2 ^ 3 from rfl, toNat_mod_two_pow_eq_zero_iff, toNat_lt_two_pow_iff]
  constructor
  · intro h
    refine ⟨fun i hi => ?_, fun i hi => ?_⟩ <;> rw [← h, hbit] <;> simp
    · omega
    · omega
  · rintro ⟨h₁, h₂⟩
    apply BitVec.eq_of_getLsbD_eq
    intro i hi
    rw [hbit]
    by_cases hlo : i < 3
    · simp [h₁ i hlo]
    · by_cases hhi : i < 32
      · simp [hhi]
        omega
      · simp [h₂ i (by omega)]

/-- `FromForwardingAddress` accepts exactly the targets that `DCHECK_ALIGNED(target, 4)` passes,
and `ForwardingAddress()` gives the target back exactly when it is aligned to objects and below
`2 ^ 32`: a target aligned to 4 but not to 8 passes the check and comes back changed. -/
theorem fromForwardingAddress_roundTrip (a : BitVec 64) :
    ((fromForwardingAddress rb a).isSome ↔ a.toNat % 4 = 0) ∧
      ∀ lw, fromForwardingAddress rb a = some lw → lw.getState rb = .forwardingAddress ∧
        (lw.forwardingAddress = a ↔ a.toNat % 8 = 0 ∧ a.toNat < 2 ^ 32) := by
  refine ⟨?_, fun lw h => ?_⟩
  · rw [Option.isSome_iff_exists]
    constructor
    · rintro ⟨lw, h⟩
      exact (fromForwardingAddress_eq_some.1 h).1
    · intro h
      exact ⟨_, fromForwardingAddress_eq_some.2 ⟨h, rfl⟩⟩
  · obtain ⟨-, rfl⟩ := fromForwardingAddress_eq_some.1 h
    refine ⟨getState_eq_forwardingAddress_iff.2 (forwardingValue_state a), ?_⟩
    rw [forwardingAddress_of_fromForwardingAddress h, and_eq_self_iff]

example : (fromForwardingAddress false 4).map forwardingAddress = some 0 := by decide

end Forwarding

/-! ## What a word says

The abstract lock word: a state with the fields that state gives meaning to.  `view` reads it off
a word by the getters its state allows, `View.encode` builds a word for it by the source's
constructor of that state, and the two are inverse on the views the constructors keep and the
words that pass `CheckReadBarrierState()`. -/

/-- A lock word's state with its fields. -/
inductive View
  | unlocked (gcState : BitVec 32)
  | thinLocked (owner count gcState : BitVec 32)
  | fatLocked (monitorId gcState : BitVec 32)
  | hashCode (hashCode : Int) (gcState : BitVec 32)
  | forwardingAddress (address : BitVec 64)
  deriving DecidableEq, Repr

/-- What `GetState()` and the getters of that state read. -/
def view (rb : Bool) (lw : LockWord) : View :=
  match lw.getState rb with
  | .unlocked => .unlocked lw.gcState
  | .thinLocked => .thinLocked lw.thinLockOwner lw.thinLockCount lw.gcState
  | .fatLocked => .fatLocked lw.fatLockMonitorId lw.gcState
  | .hashCode => .hashCode lw.getHashCode lw.gcState
  | .forwardingAddress => .forwardingAddress lw.forwardingAddress

/-- The word the source builds for a view: the hash code is passed to `FromHashCode` as the
`uint32_t` its `int32_t` converts to. -/
def View.encode (rb : Bool) : View → Option LockWord
  | .unlocked g => fromDefault rb g
  | .thinLocked o c g => fromThinLockId rb o c g
  | .fatLocked m g => fromMonitor rb m g
  | .hashCode h g => fromHashCode rb (BitVec.ofInt 32 h) g
  | .forwardingAddress a => fromForwardingAddress rb a

/-- A GC state of two bits whose read barrier state the configuration allows. -/
def GcStateOk (rb : Bool) (g : BitVec 32) : Prop := g.toNat < 2 ^ 2 ∧
    (rb = true ∨ bitFieldExtract g 0 1 = 0)

instance (g : BitVec 32) : Decidable (GcStateOk rb g) := inferInstanceAs (Decidable (_ ∧ _))

/-- The views the constructors keep: fields that fit, a GC state that `GcStateOk` allows and, for
an unlocked word without a read barrier, none; a thin word that `GetState()` does not take for
unlocked; an address aligned to objects below `2 ^ 32`. -/
def View.Valid (rb : Bool) : View → Prop
  | .unlocked g => GcStateOk rb g ∧ (rb = true ∨ g = 0)
  | .thinLocked o c g =>
    o.toNat < 2 ^ 16 ∧ c.toNat < 2 ^ 12 ∧ GcStateOk rb g ∧ ¬(o = 0 ∧ c = 0 ∧ (rb = true ∨ g = 0))
  | .fatLocked m g => m.toNat < 2 ^ 28 ∧ GcStateOk rb g
  | .hashCode h g => 0 ≤ h ∧ h < 2 ^ 28 ∧ GcStateOk rb g
  | .forwardingAddress a => a.toNat % 8 = 0 ∧ a.toNat < 2 ^ 32

instance (v : View) : Decidable (v.Valid rb) := by
  cases v <;> unfold View.Valid <;> infer_instance

section Views

variable {lw : LockWord} {g : BitVec 32}

/-- The read barrier state of a word is the low bit of its GC state. -/
theorem bitFieldExtract_readBarrierState (x : BitVec 32) :
    bitFieldExtract (bitFieldExtract x 28 2) 0 1 = bitFieldExtract x 28 1 :=
  bitFieldExtract_bitFieldExtract x (by decide)

/-- A word whose GC state is `g` passes `CheckReadBarrierState()` when `g` is allowed. -/
theorem checkReadBarrierState_of_gcStateOk {x : BitVec 32} (hx : bitFieldExtract x 28 2 = g)
    (hg : GcStateOk rb g) : checkReadBarrierState rb ⟨x⟩ := by
  rw [checkReadBarrierState_eq]
  rcases hg.2 with h | h
  · simp [h]
  · simp [← bitFieldExtract_readBarrierState, hx, h]

theorem gcStateOk_of_checkReadBarrierState (h : checkReadBarrierState rb lw)
    (hst : bitFieldExtract lw.value 30 2 ≠ 3) : GcStateOk rb lw.gcState := by
  rw [checkReadBarrierState_eq] at h
  refine ⟨gcState_eq lw ▸ toNat_bitFieldExtract_lt _ _ _, ?_⟩
  rw [gcState_eq, bitFieldExtract_readBarrierState]
  cases rb <;> simp_all

theorem eq_mk_of_value {v : BitVec 32} (h : lw.value = v) : lw = ⟨v⟩ := by
  cases lw
  cases h
  rfl

/-- A hash code in range is the same `int32_t` and `uint32_t`. -/
theorem toNat_ofInt_of_lt {h : Int} (h0 : 0 ≤ h) (hlt : h < 2 ^ 28) :
    (BitVec.ofInt 32 h).toNat = h.toNat := by
  rw [BitVec.toNat_ofInt, Int.emod_eq_of_lt h0 (by omega)]

theorem toInt_ofInt_of_lt {h : Int} (h0 : 0 ≤ h) (hlt : h < 2 ^ 28) :
    (BitVec.ofInt 32 h).toInt = h := by
  have hn := toNat_ofInt_of_lt h0 hlt
  rw [BitVec.toInt_eq_toNat_of_lt (by omega), hn]
  omega

/-! ### Each constructor's word reads back as its view -/

theorem view_encode_unlocked (hv : (View.unlocked g).Valid rb) :
    ∃ lw, (View.unlocked g).encode rb = some lw ∧ view rb lw = .unlocked g := by
  obtain ⟨hg, hz⟩ := hv
  obtain ⟨h₀, h₁, h₂, h₃⟩ := defaultValue_fields hg.1
  have hstate : getState rb ⟨g <<< 28⟩ = .unlocked :=
    getState_eq_unlocked_iff.2 ⟨h₀, h₁, h₃, by rwa [h₂]⟩
  refine ⟨⟨g <<< 28⟩, ?_, ?_⟩
  · rw [View.encode]
    exact fromDefault_eq_some.2 ⟨rfl, checkReadBarrierState_of_gcStateOk h₂ hg⟩
  · unfold view
    rw [hstate, gcState_eq, h₂]

theorem view_encode_thinLocked {o c : BitVec 32} (hv : (View.thinLocked o c g).Valid rb) :
    ∃ lw, (View.thinLocked o c g).encode rb = some lw ∧ view rb lw = .thinLocked o c g := by
  obtain ⟨ho, hc, hg, hne⟩ := hv
  obtain ⟨h₀, h₁, h₂, h₃⟩ := thinValue_fields ho hc hg.1
  -- a thin word that names no owner and no count would read as unlocked
  have hstate : getState rb ⟨o ||| c <<< 16 ||| g <<< 28⟩ = .thinLocked :=
    getState_eq_thinLocked_iff.2 ⟨h₃, fun hu => hne ⟨h₀ ▸ hu.1, h₁ ▸ hu.2.1, h₂ ▸ hu.2.2.2⟩⟩
  refine ⟨⟨o ||| c <<< 16 ||| g <<< 28⟩, ?_, ?_⟩
  · rw [View.encode]
    exact fromThinLockId_eq_some.2 ⟨ho, hc, rfl, checkReadBarrierState_of_gcStateOk h₂ hg⟩
  · unfold view
    rw [hstate, thinLockOwner_eq, thinLockCount_eq, gcState_eq, h₀, h₁, h₂]

theorem view_encode_fatLocked {m : BitVec 32} (hv : (View.fatLocked m g).Valid rb) :
    ∃ lw, (View.fatLocked m g).encode rb = some lw ∧ view rb lw = .fatLocked m g := by
  obtain ⟨hm, hg⟩ := hv
  obtain ⟨h₀, h₂, h₃⟩ := taggedValue_fields (s := kStateFat) hm hg.1 (by decide)
  have hstate : getState rb ⟨m ||| g <<< 28 ||| kStateFat <<< 30⟩ = .fatLocked :=
    getState_eq_fatLocked_iff.2 h₃
  refine ⟨⟨m ||| g <<< 28 ||| kStateFat <<< 30⟩, ?_, ?_⟩
  · rw [View.encode]
    exact fromMonitor_eq_some.2 ⟨rfl, hstate, h₀, hm, checkReadBarrierState_of_gcStateOk h₂ hg⟩
  · unfold view
    rw [hstate, fatLockMonitorId_eq, gcState_eq, h₀, h₂]

theorem view_encode_hashCode {h : Int} (hv : (View.hashCode h g).Valid rb) :
    ∃ lw, (View.hashCode h g).encode rb = some lw ∧ view rb lw = .hashCode h g := by
  obtain ⟨h0, hlt, hg⟩ := hv
  have hx : (BitVec.ofInt 32 h).toNat < 2 ^ 28 := by
    rw [toNat_ofInt_of_lt h0 hlt]
    omega
  obtain ⟨h₀, h₂, h₃⟩ := taggedValue_fields (s := kStateHash) hx hg.1 (by decide)
  have hstate : getState rb ⟨BitVec.ofInt 32 h ||| g <<< 28 ||| kStateHash <<< 30⟩ = .hashCode :=
    getState_eq_hashCode_iff.2 h₃
  refine ⟨⟨BitVec.ofInt 32 h ||| g <<< 28 ||| kStateHash <<< 30⟩, ?_, ?_⟩
  · rw [View.encode]
    exact fromHashCode_eq_some.2 ⟨hx, rfl, checkReadBarrierState_of_gcStateOk h₂ hg⟩
  · unfold view
    rw [hstate, getHashCode_eq, gcState_eq, h₀, h₂, toInt_ofInt_of_lt h0 hlt]

theorem view_encode_forwardingAddress {a : BitVec 64} (hv : (View.forwardingAddress a).Valid rb) :
    ∃ lw, (View.forwardingAddress a).encode rb = some lw ∧ view rb lw = .forwardingAddress a := by
  obtain ⟨h8, h32⟩ := hv
  have hsome : fromForwardingAddress rb a =
      some ⟨(a >>> kForwardingAddressShift |||
        kStateForwardingAddressShifted.setWidth 64).setWidth 32⟩ :=
    fromForwardingAddress_eq_some.2 ⟨by omega, rfl⟩
  have hstate : getState rb
      ⟨(a >>> kForwardingAddressShift ||| kStateForwardingAddressShifted.setWidth 64).setWidth 32⟩ =
      .forwardingAddress :=
    getState_eq_forwardingAddress_iff.2 (forwardingValue_state a)
  refine ⟨_, by rw [View.encode]; exact hsome, ?_⟩
  unfold view
  rw [hstate, forwardingAddress_of_fromForwardingAddress hsome, (and_eq_self_iff a).2 ⟨h8, h32⟩]

/-! ### Each word is rebuilt from its view -/

theorem encode_view_unlocked (hcheck : checkReadBarrierState rb lw)
    (hs : lw.getState rb = .unlocked) : (view rb lw).Valid rb ∧
      (view rb lw).encode rb = some lw := by
  obtain ⟨h₀, h₁, h₃, hz⟩ := getState_eq_unlocked_iff.1 hs
  have hg := gcStateOk_of_checkReadBarrierState hcheck (by rw [h₃]; decide)
  have hv : view rb lw = .unlocked lw.gcState := by
    unfold view
    rw [hs]
  rw [hv, gcState_eq]
  rw [gcState_eq] at hg
  refine ⟨⟨hg, hz⟩, ?_⟩
  obtain ⟨d₀, d₁, d₂, d₃⟩ := defaultValue_fields hg.1
  have hlw : lw = ⟨bitFieldExtract lw.value 28 2 <<< 28⟩ :=
    eq_mk_of_value (eq_of_thin_fields (h₀.trans d₀.symm) (h₁.trans d₁.symm) d₂.symm
      (h₃.trans d₃.symm))
  rw [View.encode]
  exact fromDefault_eq_some.2 ⟨hlw, by rw [← hlw]; exact hcheck⟩

theorem encode_view_thinLocked (hcheck : checkReadBarrierState rb lw)
    (hs : lw.getState rb = .thinLocked) :
    (view rb lw).Valid rb ∧ (view rb lw).encode rb = some lw := by
  obtain ⟨h₃, hnu⟩ := getState_eq_thinLocked_iff.1 hs
  have hg := gcStateOk_of_checkReadBarrierState hcheck (by rw [h₃]; decide)
  have hv : view rb lw = .thinLocked lw.thinLockOwner lw.thinLockCount lw.gcState := by
    unfold view
    rw [hs]
  rw [hv, thinLockOwner_eq, thinLockCount_eq, gcState_eq]
  rw [gcState_eq] at hg
  have ho := toNat_bitFieldExtract_lt lw.value 0 16
  have hc := toNat_bitFieldExtract_lt lw.value 16 12
  refine ⟨⟨ho, hc, hg, fun ⟨ho0, hc0, hz⟩ => hnu ⟨ho0, hc0, h₃, hz⟩⟩, ?_⟩
  obtain ⟨d₀, d₁, d₂, d₃⟩ := thinValue_fields ho hc hg.1
  have hlw : lw = ⟨bitFieldExtract lw.value 0 16 ||| bitFieldExtract lw.value 16 12 <<< 16 |||
      bitFieldExtract lw.value 28 2 <<< 28⟩ :=
    eq_mk_of_value (eq_of_thin_fields d₀.symm d₁.symm d₂.symm (h₃.trans d₃.symm))
  rw [View.encode]
  exact fromThinLockId_eq_some.2 ⟨ho, hc, hlw, by rw [← hlw]; exact hcheck⟩

theorem encode_view_fatLocked (hcheck : checkReadBarrierState rb lw)
    (hs : lw.getState rb = .fatLocked) :
    (view rb lw).Valid rb ∧ (view rb lw).encode rb = some lw := by
  have h₃ := getState_eq_fatLocked_iff.1 hs
  have hg := gcStateOk_of_checkReadBarrierState hcheck (by rw [h₃]; decide)
  have hv : view rb lw = .fatLocked lw.fatLockMonitorId lw.gcState := by
    unfold view
    rw [hs]
  rw [hv, fatLockMonitorId_eq, gcState_eq]
  rw [gcState_eq] at hg
  have hm := toNat_bitFieldExtract_lt lw.value 0 28
  refine ⟨⟨hm, hg⟩, ?_⟩
  obtain ⟨d₀, d₂, d₃⟩ := taggedValue_fields (s := kStateFat) hm hg.1 (by decide)
  have hlw : lw = ⟨bitFieldExtract lw.value 0 28 ||| bitFieldExtract lw.value 28 2 <<< 28 |||
      kStateFat <<< 30⟩ :=
    eq_mk_of_value (eq_of_hash_fields d₀.symm d₂.symm (h₃.trans d₃.symm))
  rw [View.encode]
  exact fromMonitor_eq_some.2 ⟨hlw, hs, rfl, hm, hcheck⟩

theorem encode_view_hashCode (hcheck : checkReadBarrierState rb lw)
    (hs : lw.getState rb = .hashCode) :
    (view rb lw).Valid rb ∧ (view rb lw).encode rb = some lw := by
  have h₃ := getState_eq_hashCode_iff.1 hs
  have hg := gcStateOk_of_checkReadBarrierState hcheck (by rw [h₃]; decide)
  have hv : view rb lw = .hashCode lw.getHashCode lw.gcState := by
    unfold view
    rw [hs]
  rw [hv, getHashCode_eq, gcState_eq]
  rw [gcState_eq] at hg
  have hh := toNat_bitFieldExtract_lt lw.value 0 28
  have hint : (bitFieldExtract lw.value 0 28).toInt = (bitFieldExtract lw.value 0 28).toNat :=
    BitVec.toInt_eq_toNat_of_lt (by omega)
  refine ⟨⟨by omega, by omega, hg⟩, ?_⟩
  obtain ⟨d₀, d₂, d₃⟩ := taggedValue_fields (s := kStateHash) hh hg.1 (by decide)
  have hlw : lw = ⟨bitFieldExtract lw.value 0 28 ||| bitFieldExtract lw.value 28 2 <<< 28 |||
      kStateHash <<< 30⟩ :=
    eq_mk_of_value (eq_of_hash_fields d₀.symm d₂.symm (h₃.trans d₃.symm))
  rw [View.encode, BitVec.ofInt_toInt]
  exact fromHashCode_eq_some.2 ⟨hh, hlw, by rw [← hlw]; exact hcheck⟩

/-- The bits of `ForwardingAddress()`. -/
theorem getLsbD_forwardingAddress (lw : LockWord) (i : Nat) :
    lw.forwardingAddress.getLsbD i =
      (decide (3 ≤ i) && decide (i < 32) && lw.value.getLsbD (i - 3)) := by
  simp only [forwardingAddress, BitVec.getLsbD_setWidth, BitVec.getLsbD_shiftLeft,
    kForwardingAddressShift, kObjectAlignmentShift]
  by_cases h₁ : i < 3
  · simp [h₁]
  · by_cases h₂ : i < 32
    · simp [h₁, h₂, show i < 64 by omega, show 3 ≤ i by omega]
    · simp [h₂]

/-- A forwarding word is rebuilt from its address only if its bit 29, which lies under the
address, is clear: `FromForwardingAddress` never sets it. -/
theorem encode_view_forwardingAddress (hs : lw.getState rb = .forwardingAddress)
    (hmark : lw.markBitState = 0) :
    (view rb lw).Valid rb ∧ (view rb lw).encode rb = some lw := by
  have h₃ := getState_eq_forwardingAddress_iff.1 hs
  have hv : view rb lw = .forwardingAddress lw.forwardingAddress := by
    unfold view
    rw [hs]
  rw [hv]
  have h8 : lw.forwardingAddress.toNat % 2 ^ 3 = 0 := by
    rw [toNat_mod_two_pow_eq_zero_iff]
    intro i hi
    simp [getLsbD_forwardingAddress, show ¬3 ≤ i by omega]
  have h32 : lw.forwardingAddress.toNat < 2 ^ 32 := by
    rw [toNat_lt_two_pow_iff]
    intro i hi
    simp [getLsbD_forwardingAddress, show ¬i < 32 by omega]
  refine ⟨⟨h8, h32⟩, ?_⟩
  -- the state bits are set and bit 29 is clear, as the word `FromForwardingAddress` builds
  have hstate : ∀ i, 30 ≤ i → i < 32 → lw.value.getLsbD i = true := by
    intro i h₁ h₂
    have := congrArg (fun x => x.getLsbD (i - 30)) h₃
    simp only [getLsbD_bitFieldExtract, show i - 30 < 2 by omega, show i - 30 < 32 by omega,
      show 30 + (i - 30) = i by omega, decide_true, Bool.and_true] at this
    rw [this]
    rcases (by omega : i = 30 ∨ i = 31) with rfl | rfl <;> decide
  have hbit29 : lw.value.getLsbD 29 = false := by
    have := congrArg (fun x => x.getLsbD 0) hmark
    simp only [markBitState_eq, getLsbD_bitFieldExtract, Nat.add_zero, Nat.lt_one_iff,
      show (0 : Nat) < 32 by decide, decide_true, Bool.and_true] at this
    exact this
  have hlw : lw = ⟨(lw.forwardingAddress >>> kForwardingAddressShift |||
      kStateForwardingAddressShifted.setWidth 64).setWidth 32⟩ := by
    apply eq_mk_of_value
    apply BitVec.eq_of_getLsbD_eq
    intro i hi
    rw [getLsbD_forwardingValue, getLsbD_forwardingAddress]
    by_cases h₁ : 30 ≤ i
    · simp [hi, h₁, hstate i h₁ hi]
    · by_cases h₂ : i = 29
      · subst h₂
        rw [hbit29]
        rfl
      · simp [hi, h₁, show 3 + i < 32 by omega, show 3 + i - 3 = i by omega]
  rw [View.encode]
  exact fromForwardingAddress_eq_some.2 ⟨by omega, hlw⟩

/-! ### The round trips -/

/-- Every valid view is built by the constructor of its state, and the word built reads back as
that view. -/
theorem view_encode {v : View} (hv : v.Valid rb) : ∃ lw, v.encode rb = some lw ∧
    view rb lw = v := by
  cases v with
  | unlocked g => exact view_encode_unlocked hv
  | thinLocked o c g => exact view_encode_thinLocked hv
  | fatLocked m g => exact view_encode_fatLocked hv
  | hashCode h g => exact view_encode_hashCode hv
  | forwardingAddress a => exact view_encode_forwardingAddress hv

theorem view_encode_thin_owner_five :
    (View.thinLocked 5 2 0).Valid false ∧
      ∃ lw, (View.thinLocked 5 2 0).encode false = some lw ∧
        view false lw = .thinLocked 5 2 0 :=
  ⟨by decide, view_encode (by decide)⟩

/-- Every word that passes `CheckReadBarrierState()` has a valid view, from which the constructor of
its state rebuilds it; a forwarding word must have its bit 29 clear, as every forwarding word
`FromForwardingAddress` builds has. -/
theorem encode_view (hcheck : checkReadBarrierState rb lw)
    (hfwd : lw.getState rb = .forwardingAddress → lw.markBitState = 0) :
    (view rb lw).Valid rb ∧ (view rb lw).encode rb = some lw := by
  cases hs : lw.getState rb with
  | unlocked => exact encode_view_unlocked hcheck hs
  | thinLocked => exact encode_view_thinLocked hcheck hs
  | fatLocked => exact encode_view_fatLocked hcheck hs
  | hashCode => exact encode_view_hashCode hcheck hs
  | forwardingAddress => exact encode_view_forwardingAddress hs (hfwd hs)

theorem encode_view_thin_word :
    checkReadBarrierState true ⟨0x30020005⟩ ∧
      ((getState true ⟨0x30020005⟩ = .forwardingAddress → markBitState ⟨0x30020005⟩ = 0) ∧
        (view true ⟨0x30020005⟩).Valid true ∧
          (view true ⟨0x30020005⟩).encode true = some ⟨0x30020005⟩) :=
  ⟨by decide, by decide, encode_view (by decide) (by decide)⟩

end Views

/-! ## The GC state

`SetReadBarrierState` and `SetMarkBitState` write one bit of the GC state each, in the same way;
the gray-state `DCHECK` of the first never fails once its mask `DCHECK` has passed.  With a read
barrier `GetState()` does not read the GC state, so a word whose GC state alone changes says the
same but for its GC state, and `Equal<false>` tells exactly the words that agree outside it. -/

section GcState

variable {lw lw' : LockWord} {x : BitVec 32}

/-- The view with its GC state replaced; a forwarding word has none. -/
def View.withGcState (g : BitVec 32) : View → View
  | .unlocked _ => .unlocked g
  | .thinLocked o c _ => .thinLocked o c g
  | .fatLocked m _ => .fatLocked m g
  | .hashCode h _ => .hashCode h g
  | .forwardingAddress a => .forwardingAddress a

theorem setReadBarrierState_eq_some : lw.setReadBarrierState rb x = some lw' ↔
    x.toNat < 2 ∧ lw.getState rb ≠ .forwardingAddress ∧ lw' = ⟨bitFieldInsert lw.value x 28 1⟩ := by
  have hmask : x &&& ~~~kReadBarrierStateMask = 0 ↔ x.toNat < 2 ^ 1 :=
    and_not_maskLeastSignificant_eq_zero_iff x 1
  unfold setReadBarrierState
  by_cases hx : x.toNat < 2
  · -- a value of one bit is a gray state or not, and the mask keeps it
    have hgray : (x == ReadBarrier.kNonGrayState || x == ReadBarrier.kGrayState) = true := by
      rcases (by bv_omega : x = 0 ∨ x = 1) with rfl | rfl <;> decide
    rw [if_neg (not_not.2 (hmask.2 hx)), hgray]
    by_cases hs : lw.getState rb = .forwardingAddress
    · simp [hs]
    · simp only [Bool.not_true, Bool.false_eq_true, if_false, if_neg hs, Option.some.injEq]
      exact ⟨fun h => ⟨hx, hs, h.symm⟩, fun h => h.2.2.symm⟩
  · rw [if_pos (mt hmask.1 hx)]
    simp [hx]

theorem setMarkBitState_eq_some : lw.setMarkBitState rb x = some lw' ↔
    x.toNat < 2 ∧ lw.getState rb ≠ .forwardingAddress ∧ lw' = ⟨bitFieldInsert lw.value x 29 1⟩ := by
  have hmask : x &&& ~~~kMarkBitStateMask = 0 ↔ x.toNat < 2 ^ 1 :=
    and_not_maskLeastSignificant_eq_zero_iff x 1
  unfold setMarkBitState
  by_cases hx : x.toNat < 2
  · -- the mark bit is or-ed in unmasked, which is `BitFieldInsert` of a bit that fits
    have hkeep : x &&& maskLeastSignificant 32 1 = x := by
      simpa [bitFieldExtract] using bitFieldExtract_of_lt (show x.toNat < 2 ^ 1 from hx) (by decide)
    have hval : (lw.value &&& kMarkBitStateMaskShiftedToggled) ||| (x <<< kMarkBitStateShift) =
        bitFieldInsert lw.value x 29 1 := by
      rw [bitFieldInsert, hkeep]
      rfl
    rw [if_neg (not_not.2 (hmask.2 hx)), hval]
    by_cases hs : lw.getState rb = .forwardingAddress
    · simp [hs]
    · rw [if_neg hs, Option.some.injEq]
      exact ⟨fun h => ⟨hx, hs, h.symm⟩, fun h => h.2.2.symm⟩
  · rw [if_pos (mt hmask.1 hx)]
    simp [hx]

/-- The bit a setter writes lies in the GC state: the hash code (or monitor id, or owner and count)
and the state stay as they were. -/
theorem bitFieldInsert_gcBit_fields (lw : LockWord) (x : BitVec 32) {s : Nat}
    (hs : s = 28 ∨ s = 29) :
    bitFieldExtract (bitFieldInsert lw.value x s 1) 0 28 = bitFieldExtract lw.value 0 28 ∧
      bitFieldExtract (bitFieldInsert lw.value x s 1) 30 2 = bitFieldExtract lw.value 30 2 :=
  ⟨bitFieldExtract_bitFieldInsert_of_disjoint _ _ (.inr (by omega)),
    bitFieldExtract_bitFieldInsert_of_disjoint _ _ (.inl (by omega))⟩

/-- `Equal<false>` holds of exactly the words that agree outside their GC state. -/
theorem equal_false_iff : lw.equal false lw' = true ↔
    bitFieldExtract lw.value 0 28 = bitFieldExtract lw'.value 0 28 ∧
      bitFieldExtract lw.value 30 2 = bitFieldExtract lw'.value 30 2 := by
  have hfields : ∀ y : BitVec 32,
      bitFieldExtract (bitFieldClear y 28 2) 0 28 = bitFieldExtract y 0 28 ∧
      bitFieldExtract (bitFieldClear y 28 2) 28 2 = 0 ∧
        bitFieldExtract (bitFieldClear y 28 2) 30 2 = bitFieldExtract y 30 2 :=
    fun y => ⟨bitFieldExtract_bitFieldClear_of_disjoint y (.inr (by decide)),
      bitFieldExtract_bitFieldClear_of_le y le_rfl le_rfl,
      bitFieldExtract_bitFieldClear_of_disjoint y (.inl (by decide))⟩
  simp only [equal, Bool.false_eq_true, if_false, beq_iff_eq, getValueWithoutGCState_eq]
  obtain ⟨a₀, a₂, a₃⟩ := hfields lw.value
  obtain ⟨b₀, b₂, b₃⟩ := hfields lw'.value
  constructor
  · intro h
    rw [← a₀, ← b₀, ← a₃, ← b₃, h]
    exact ⟨rfl, rfl⟩
  · rintro ⟨h₀, h₃⟩
    exact eq_of_hash_fields (by rw [a₀, b₀, h₀]) (by rw [a₂, b₂]) (by rw [a₃, b₃, h₃])

/-- With a read barrier, a word that agrees with a word that is not forwarding outside the GC state
has its view with its own GC state. -/
theorem view_of_fields_eq (h₀ : bitFieldExtract lw'.value 0 28 = bitFieldExtract lw.value 0 28)
    (h₃ : bitFieldExtract lw'.value 30 2 = bitFieldExtract lw.value 30 2)
      (hfwd : lw.getState true ≠ .forwardingAddress) :
    view true lw' = (view true lw).withGcState lw'.gcState := by
  have hlow : ∀ {s n : Nat}, s + n ≤ 28 →
      bitFieldExtract lw'.value s n = bitFieldExtract lw.value s n := by
    intro s n h
    rw [← Nat.zero_add s, ← bitFieldExtract_bitFieldExtract _ h, h₀,
      bitFieldExtract_bitFieldExtract _ h]
  have hs : lw'.getState true = lw.getState true := by
    rw [getState_eq, getState_eq]
    simp only [UnlockedFields, hlow (show 0 + 16 ≤ 28 by decide),
      hlow (show 16 + 12 ≤ 28 by decide),
      h₃, true_or, and_true]
  unfold view
  rw [hs]
  cases hstate : lw.getState true with
  | unlocked => rfl
  | thinLocked =>
    simp only [View.withGcState, thinLockOwner_eq, thinLockCount_eq,
      hlow (show 0 + 16 ≤ 28 by decide), hlow (show 16 + 12 ≤ 28 by decide)]
  | fatLocked => simp only [View.withGcState, fatLockMonitorId_eq, h₀]
  | hashCode => simp only [View.withGcState, getHashCode_eq, h₀]
  | forwardingAddress => exact absurd hstate hfwd

/-- The GC state is the mark bit over the read barrier bit. -/
theorem gcState_eq_bits (lw : LockWord) :
    lw.gcState = lw.markBitState <<< 1 ||| lw.readBarrierState := by
  rw [gcState_eq, markBitState_eq, readBarrierState_eq, show (2 : Nat) = 1 + 1 from rfl,
    bitFieldExtract_add]

/-- The GC state after `x` is written into its read barrier bit or its mark bit: the other bit
is kept. -/
theorem gcState_bitFieldInsert (hx : x.toNat < 2) :
    LockWord.gcState ⟨bitFieldInsert lw.value x 28 1⟩ = lw.markBitState <<< 1 ||| x ∧
      LockWord.gcState ⟨bitFieldInsert lw.value x 29 1⟩ = x <<< 1 ||| lw.readBarrierState := by
  have hbit : bitFieldExtract x 0 1 = x :=
    bitFieldExtract_of_lt (show x.toNat < 2 ^ 1 from hx) (by decide)
  simp only [gcState_eq_bits, markBitState_eq, readBarrierState_eq]
  rw [bitFieldExtract_bitFieldInsert_self _ _ (by decide),
    bitFieldExtract_bitFieldInsert_self _ _ (by decide),
    bitFieldExtract_bitFieldInsert_of_disjoint _ _ (.inl (by decide)),
    bitFieldExtract_bitFieldInsert_of_disjoint _ _ (.inr (by decide)), hbit]
  exact ⟨rfl, rfl⟩

/-- A GC bit written into a word that is not forwarding: the view with the new GC state, and
`Equal<false>` to the old word. -/
theorem view_bitFieldInsert_gcBit {s : Nat} (hs : s = 28 ∨ s = 29)
    (hfwd : lw.getState true ≠ .forwardingAddress) :
    view true ⟨bitFieldInsert lw.value x s 1⟩ =
        (view true lw).withGcState (LockWord.gcState ⟨bitFieldInsert lw.value x s 1⟩) ∧
      lw.equal false ⟨bitFieldInsert lw.value x s 1⟩ = true := by
  obtain ⟨h₀, h₃⟩ := bitFieldInsert_gcBit_fields lw x hs
  exact ⟨view_of_fields_eq h₀ h₃ hfwd, equal_false_iff.2 ⟨h₀.symm, h₃.symm⟩⟩

/-- With a read barrier, `SetReadBarrierState(x)` and `SetMarkBitState(x)` write `x` into their
bit of the GC state and change nothing else a word says: its view is the old one with the new GC
state, and `Equal<false>` holds between the two words. -/
theorem gcStateSetters_view (lw lw' : LockWord) (x : BitVec 32) :
    (lw.setReadBarrierState true x = some lw' →
      view true lw' = (view true lw).withGcState (lw.markBitState <<< 1 ||| x) ∧
        lw.equal false lw' = true) ∧
    (lw.setMarkBitState true x = some lw' →
      view true lw' = (view true lw).withGcState (x <<< 1 ||| lw.readBarrierState) ∧
        lw.equal false lw' = true) := by
  refine ⟨fun h => ?_, fun h => ?_⟩
  · obtain ⟨hx, hfwd, rfl⟩ := setReadBarrierState_eq_some.1 h
    rw [← (gcState_bitFieldInsert hx).1]
    exact view_bitFieldInsert_gcBit (.inl rfl) hfwd
  · obtain ⟨hx, hfwd, rfl⟩ := setMarkBitState_eq_some.1 h
    rw [← (gcState_bitFieldInsert hx).2]
    exact view_bitFieldInsert_gcBit (.inr rfl) hfwd

theorem gcStateSetters_view_gray :
    (LockWord.mk 0x20005).setReadBarrierState true 1 = some ⟨0x10020005⟩ ∧
      (view true ⟨0x10020005⟩ =
          (view true ⟨0x20005⟩).withGcState (LockWord.markBitState ⟨0x20005⟩ <<< 1 ||| 1) ∧
        (LockWord.mk 0x20005).equal false ⟨0x10020005⟩ = true) :=
  have h : (LockWord.mk 0x20005).setReadBarrierState true 1 = some ⟨0x10020005⟩ := by decide
  ⟨h, (gcStateSetters_view ⟨0x20005⟩ ⟨0x10020005⟩ 1).1 h⟩

/-- Without a read barrier `GetState()` reads the GC state: the mark bit set on the unlocked word
makes it thin locked by thread `0`. -/
example : ((LockWord.default.setMarkBitState false 1).map fun lw => lw.getState false) =
    some .thinLocked := by decide

end GcState

end LockWord

end Art
