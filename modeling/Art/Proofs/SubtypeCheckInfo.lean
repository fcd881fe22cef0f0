import Art.Runtime.SubtypeCheck

/-!
# What the `SubtypeCheckInfo` operations do, character by character

A state is read off the overflow bit and the characters (`getState_eq_assigned_iff` and its
neighbours).  `CreateRoot` and `CreateChild` are described by the characters they leave
(`chars_createChild_fst`, `createChild_snd`), with `TakesNext` saying when the child gets the
parent's `Next`.  `IsSubtypeOf` of a target that is Assigned compares the source's path to the
target's characters up to the target's depth (`isSubtypeOf_eq`).

`Advances` is how the documentation lets a class's bits change: out of Uninitialized, from
Initialized into Assigned or Overflowed, and in an Assigned class only past its path.
-/

namespace Art

namespace SubtypeCheckInfo

open BitString

variable (info : SubtypeCheckInfo)

/-! ### States -/

theorem chars_getPathToRoot (k : Nat) :
    info.getPathToRoot.chars k =
      if k < min info.depth kCapacity then info.getBitString.chars k else 0 := by
  rw [getPathToRoot, chars_truncate, getSafeDepth]

theorem length_getPathToRoot_eq_iff :
    info.getPathToRoot.length = info.depth ↔
      info.depth ≤ kCapacity ∧ (info.depth = 0 ∨ info.getBitString.chars (info.depth - 1) ≠ 0) := by
  by_cases hd : info.depth ≤ kCapacity
  · rw [getPathToRoot, getSafeDepth, Nat.min_eq_left hd, length_truncate_eq_iff _ hd]
    exact ⟨fun h => ⟨hd, h⟩, fun h => h.2⟩
  · have hle : info.getPathToRoot.length ≤ kCapacity := Nat.sub_le _ _
    constructor
    · intro h
      omega
    · intro h
      exact absurd h.1 hd

theorem getState_eq_overflowed_iff :
    info.getState = .kOverflowed ↔ info.bitstringAndOf.overflow = true := by
  unfold getState
  split_ifs <;> simp_all

theorem getState_eq_uninitialized_iff :
    info.getState = .kUninitialized ↔
      info.bitstringAndOf.overflow = false ∧ ∀ k, info.getBitString.chars k = 0 := by
  rw [← BitString.isEmpty_iff]
  unfold getState
  split_ifs <;> simp_all

theorem getState_eq_assigned_iff :
    info.getState = .kAssigned ↔
      info.bitstringAndOf.overflow = false ∧ (∃ k, info.getBitString.chars k ≠ 0) ∧
        info.depth ≤ kCapacity ∧ (0 < info.depth → info.getBitString.chars (info.depth - 1) ≠ 0) := by
  have hempty : info.getBitString.isEmpty = false ↔ ∃ k, info.getBitString.chars k ≠ 0 := by
    rw [← Bool.not_eq_true, BitString.isEmpty_iff, not_forall]
  unfold getState
  split_ifs with hof hem hlen
  · simp [hof]
  · simp only [false_iff]
    rintro ⟨-, hne, -⟩
    simp [hem] at hempty
    exact absurd hne (by simpa using hempty)
  · rw [length_getPathToRoot_eq_iff] at hlen
    simp only [true_iff]
    refine ⟨by simpa using hof, hempty.1 (by simpa using hem), hlen.1, fun hpos => ?_⟩
    rcases hlen.2 with h | h
    · omega
    · exact h
  · rw [length_getPathToRoot_eq_iff] at hlen
    simp only [false_iff]
    rintro ⟨-, -, hd, hlast⟩
    apply hlen ⟨hd, _⟩
    by_cases h0 : info.depth = 0
    · exact Or.inl h0
    · exact Or.inr (hlast (by omega))

/-! ### Writing `Next` -/

variable {info}

@[simp]
theorem depth_setNext (next : BitStringChar) : (info.setNext next).depth = info.depth := rfl

@[simp]
theorem overflow_setNext (next : BitStringChar) :
    (info.setNext next).bitstringAndOf.overflow = info.bitstringAndOf.overflow := rfl

@[simp]
theorem chars_setNext (next : BitStringChar) (k : Nat) :
    (info.setNext next).getBitString.chars k =
      if k = info.depth then next.data.toNat % 2 ^ maybeGetBitLengthAtPosition info.depth
      else info.getBitString.chars k :=
  chars_setAt _ _ _ _

theorem toNat_getNext : info.getNext.data.toNat = info.getBitString.chars info.depth := rfl

@[simp]
theorem depth_maybeInitNext : info.maybeInitNext.depth = info.depth := by
  unfold maybeInitNext
  split_ifs <;> rfl

@[simp]
theorem overflow_maybeInitNext :
    info.maybeInitNext.bitstringAndOf.overflow = info.bitstringAndOf.overflow := by
  unfold maybeInitNext
  split_ifs <;> rfl

theorem hasNext_eq_true_iff : info.hasNext = true ↔ info.depth < kCapacity := decide_eq_true_iff

/-- `MaybeInitNext` sets `Next` to 1 where there is one. -/
theorem chars_maybeInitNext (k : Nat) :
    info.maybeInitNext.getBitString.chars k =
      if k = info.depth then (if info.depth < kCapacity then 1 else 0)
      else info.getBitString.chars k := by
  unfold maybeInitNext
  by_cases hd : info.depth < kCapacity
  · rw [if_pos (hasNext_eq_true_iff.2 hd)]
    by_cases hk : k = info.depth
    · subst hk
      have hlt : 1 < 2 ^ maybeGetBitLengthAtPosition info.depth :=
        Nat.one_lt_two_pow (Nat.ne_of_gt (maybeGetBitLengthAtPosition_pos hd))
      have hcleared : (info.setNext BitStringChar.empty).getNext.data.toNat = 0 := by
        rw [toNat_getNext, chars_setNext, depth_setNext, if_pos rfl]
        exact Nat.zero_mod _
      rw [if_pos rfl, if_pos hd, chars_setNext, depth_setNext, if_pos rfl, BitStringChar.data_add,
        BitVec.toNat_add, hcleared, show (1 : BitVec 32).toNat = 1 from rfl,
        Nat.mod_eq_of_lt (show 0 + 1 < 2 ^ 32 by decide), Nat.mod_eq_of_lt hlt]
    · rw [chars_setNext, depth_setNext, if_neg hk, chars_setNext, if_neg hk, if_neg hk]
  · rw [if_neg (fun h => hd (hasNext_eq_true_iff.1 h))]
    by_cases hk : k = info.depth
    · rw [if_pos hk, if_neg hd]
      exact info.getBitString.chars_of_le (by omega)
    · rw [if_neg hk]

@[simp]
theorem depth_overwriteNextValueFromParent (parent : SubtypeCheckInfo) (value : BitStringChar) :
    (parent.overwriteNextValueFromParent info value).depth = info.depth := by
  unfold overwriteNextValueFromParent
  split_ifs <;> rfl

@[simp]
theorem overflow_overwriteNextValueFromParent (parent : SubtypeCheckInfo)
    (value : BitStringChar) :
    (parent.overwriteNextValueFromParent info value).bitstringAndOf.overflow =
      info.bitstringAndOf.overflow := by
  unfold overwriteNextValueFromParent
  split_ifs <;> rfl

theorem chars_overwriteNextValueFromParent (parent : SubtypeCheckInfo) (value : BitStringChar)
    (k : Nat) :
    (parent.overwriteNextValueFromParent info value).getBitString.chars k =
      if k = parent.depth then value.data.toNat % 2 ^ maybeGetBitLengthAtPosition parent.depth
      else info.getBitString.chars k := by
  unfold overwriteNextValueFromParent
  split_ifs with hn hk hk
  · exact chars_setAt _ _ _ _ |>.trans (if_pos hk)
  · exact chars_setAt _ _ _ _ |>.trans (if_neg hk)
  · -- no `Next` past the last character: both sides read an empty field
    rw [hasNext_eq_true_iff, not_lt] at hn
    subst hk
    rw [maybeGetBitLengthAtPosition_of_le hn, Nat.pow_zero, Nat.mod_one]
    exact info.getBitString.chars_of_le hn
  · rfl

/-! ### `CreateRoot` -/

@[simp]
theorem depth_createRoot : createRoot.depth = 0 := rfl

@[simp]
theorem overflow_createRoot : createRoot.bitstringAndOf.overflow = false := rfl

theorem chars_createRoot (k : Nat) : createRoot.getBitString.chars k = if k = 0 then 1 else 0 := by
  unfold createRoot
  rw [chars_setNext]
  split_ifs with hk
  · rfl
  · exact chars_empty k

theorem getState_createRoot : createRoot.getState = .kAssigned := by
  rw [getState_eq_assigned_iff]
  exact ⟨rfl, ⟨0, by rw [chars_createRoot]; decide⟩, by decide, fun h => absurd h (by decide)⟩

/-! ### `CreateChild` -/

variable (info)

/-- Whether `CreateChild(assign)` gives the child the parent's `Next`: the parent is assigning,
has a `Next`, is not overflowed, and its `Next` is below the largest character. -/
def TakesNext (assign : Bool) : Prop :=
  assign = true ∧ info.hasNext = true ∧ info.bitstringAndOf.overflow = false ∧
    info.getNext.data ≠ info.getNext.maximumValue.data

instance (assign : Bool) : Decidable (info.TakesNext assign) := by
  unfold TakesNext
  infer_instance

/-- The child before `CreateChild` chooses between the parent's `Next` and overflow. -/
def initialChild : SubtypeCheckInfo :=
  info.overwriteNextValueFromParent { info with depth := info.depth + 1 }.maybeInitNext
    BitStringChar.empty

variable {info}

theorem takesNext_iff (assign : Bool) :
    info.TakesNext assign ↔
      assign = true ∧ info.depth < kCapacity ∧ info.bitstringAndOf.overflow = false ∧
        info.getBitString.chars info.depth + 1 < 2 ^ maybeGetBitLengthAtPosition info.depth := by
  have hmax : info.getNext.maximumValue.data.toNat =
      2 ^ maybeGetBitLengthAtPosition info.depth - 1 :=
    toNat_maxInt (maybeGetBitLengthAtPosition_lt info.depth)
  have hlt := info.getBitString.chars_lt info.depth
  have hpow := Nat.two_pow_pos (maybeGetBitLengthAtPosition info.depth)
  unfold TakesNext
  rw [ne_eq, BitVec.toNat_eq, hmax, toNat_getNext, hasNext_eq_true_iff]
  constructor
  · rintro ⟨ha, hd, hof, hne⟩
    exact ⟨ha, hd, hof, by omega⟩
  · rintro ⟨ha, hd, hof, hlt'⟩
    exact ⟨ha, hd, hof, by omega⟩

theorem createChild_eq (assign : Bool) :
    info.createChild assign =
      if info.TakesNext assign then
        (info.overwriteNextValueFromParent info.initialChild info.getNext,
          info.setNext (info.getNext.add 1))
      else if assign then (info.initialChild.markOverflowed, info)
      else (info.initialChild, info) := by
  unfold createChild TakesNext initialChild
  cases assign <;> by_cases hn : info.hasNext <;>
    by_cases hof : info.bitstringAndOf.overflow <;> simp [hn, hof]

@[simp]
theorem depth_initialChild : info.initialChild.depth = info.depth + 1 := by
  simp [initialChild]

@[simp]
theorem overflow_initialChild :
    info.initialChild.bitstringAndOf.overflow = info.bitstringAndOf.overflow := by
  simp [initialChild]

theorem chars_initialChild (k : Nat) :
    info.initialChild.getBitString.chars k =
      if k = info.depth then 0
      else if k = info.depth + 1 then (if info.depth + 1 < kCapacity then 1 else 0)
      else info.getBitString.chars k := by
  rw [initialChild, chars_overwriteNextValueFromParent, chars_maybeInitNext]
  split_ifs <;> rfl

@[simp]
theorem depth_markOverflowed : info.markOverflowed.depth = info.depth := rfl

@[simp]
theorem getBitString_markOverflowed : info.markOverflowed.getBitString = info.getBitString := rfl

@[simp]
theorem depth_createChild_fst (assign : Bool) :
    (info.createChild assign).1.depth = info.depth + 1 := by
  rw [createChild_eq]
  split_ifs <;> simp

theorem overflow_createChild_fst (assign : Bool) :
    (info.createChild assign).1.bitstringAndOf.overflow =
      if info.TakesNext assign then false else (assign || info.bitstringAndOf.overflow) := by
  rw [createChild_eq]
  split_ifs with ht ha
  · simp [ht.2.2.1]
  · simp [markOverflowed, ha]
  · simp [ha]

theorem chars_createChild_fst (assign : Bool) (k : Nat) :
    (info.createChild assign).1.getBitString.chars k =
      if k = info.depth then (if info.TakesNext assign then info.getBitString.chars k else 0)
      else if k = info.depth + 1 then (if info.depth + 1 < kCapacity then 1 else 0)
      else info.getBitString.chars k := by
  rw [createChild_eq]
  by_cases ht : info.TakesNext assign
  · rw [if_pos ht, chars_overwriteNextValueFromParent, chars_initialChild, toNat_getNext]
    by_cases hk : k = info.depth
    · subst hk
      rw [if_pos rfl, if_pos rfl, if_pos ht]
      exact Nat.mod_eq_of_lt (info.getBitString.chars_lt _)
    · rw [if_neg hk, if_neg hk, if_neg hk]
  · rw [if_neg ht]
    split_ifs <;> simp_all [chars_initialChild]

theorem createChild_snd (assign : Bool) :
    (info.createChild assign).2 =
      if info.TakesNext assign then info.setNext (info.getNext.add 1) else info := by
  rw [createChild_eq]
  split_ifs <;> rfl

/-- The parent's `Next` after it is taken is one more. -/
theorem chars_createChild_snd (assign : Bool) (k : Nat) :
    (info.createChild assign).2.getBitString.chars k =
      if k = info.depth ∧ info.TakesNext assign then info.getBitString.chars k + 1
      else info.getBitString.chars k := by
  rw [createChild_snd]
  by_cases ht : info.TakesNext assign
  · have hlt := ((takesNext_iff assign).1 ht).2.2.2
    rw [if_pos ht, chars_setNext]
    by_cases hk : k = info.depth
    · subst hk
      rw [if_pos rfl, if_pos ⟨rfl, ht⟩, BitStringChar.data_add, BitVec.toNat_add, toNat_getNext]
      have h32 : info.getBitString.chars info.depth + 1 < 2 ^ 32 :=
        lt_of_lt_of_le hlt (Nat.pow_le_pow_right (by decide)
          (Nat.le_of_lt (maybeGetBitLengthAtPosition_lt _)))
      rw [show (1 : BitVec 32).toNat = 1 from rfl, Nat.mod_eq_of_lt h32, Nat.mod_eq_of_lt hlt]
    · rw [if_neg hk, if_neg (fun h => hk h.1)]
  · rw [if_neg ht, if_neg (fun h => ht h.2)]

@[simp]
theorem depth_createChild_snd (assign : Bool) :
    (info.createChild assign).2.depth = info.depth := by
  rw [createChild_snd]
  split_ifs <;> rfl

@[simp]
theorem overflow_createChild_snd (assign : Bool) :
    (info.createChild assign).2.bitstringAndOf.overflow = info.bitstringAndOf.overflow := by
  rw [createChild_snd]
  split_ifs <;> rfl

/-- Taking the parent's `Next` changes nothing on its path. -/
theorem getPathToRoot_createChild_snd (assign : Bool) :
    (info.createChild assign).2.getPathToRoot = info.getPathToRoot := by
  unfold getPathToRoot getSafeDepth
  rw [depth_createChild_snd, truncate_eq_iff]
  intro k hk
  rw [chars_createChild_snd, if_neg (fun h => by omega)]

/-- A parent that is Assigned or Overflowed stays so when a child takes its `Next`. -/
theorem getState_createChild_snd (assign : Bool)
    (h : info.getState = .kAssigned ∨ info.getState = .kOverflowed) :
    (info.createChild assign).2.getState = info.getState := by
  by_cases ht : info.TakesNext assign
  · have hof : info.bitstringAndOf.overflow = false := ((takesNext_iff assign).1 ht).2.2.1
    have ha : info.getState = .kAssigned := by
      rcases h with h | h
      · exact h
      · rw [getState_eq_overflowed_iff] at h
        simp [hof] at h
    obtain ⟨-, -, hd, hlast⟩ := (getState_eq_assigned_iff info).1 ha
    rw [ha, getState_eq_assigned_iff, overflow_createChild_snd, depth_createChild_snd]
    refine ⟨hof, ⟨info.depth, ?_⟩, hd, fun hpos => ?_⟩
    · rw [chars_createChild_snd, if_pos ⟨rfl, ht⟩]
      omega
    · rw [chars_createChild_snd, if_neg (fun h => by omega)]
      exact hlast hpos
  · rw [createChild_snd, if_neg ht]

/-- The child `CreateChild` makes of an Assigned or Overflowed parent is initialized. -/
theorem getState_createChild_fst_ne (assign : Bool)
    (h : info.getState = .kAssigned ∨ info.getState = .kOverflowed) :
    (info.createChild assign).1.getState ≠ .kUninitialized := by
  rw [Ne, getState_eq_uninitialized_iff, overflow_createChild_fst]
  rintro ⟨hof, hz⟩
  -- a child that is not overflowed has a parent that is not overflowed either, so Assigned
  have hpof : info.bitstringAndOf.overflow = false := by
    split_ifs at hof with ht
    · exact ((takesNext_iff assign).1 ht).2.2.1
    · exact (Bool.or_eq_false_iff.1 hof).2
  have ha : info.getState = .kAssigned := by
    rcases h with h | h
    · exact h
    · rw [getState_eq_overflowed_iff] at h
      simp [hpof] at h
  obtain ⟨-, -, -, hlast⟩ := (getState_eq_assigned_iff info).1 ha
  by_cases hd : info.depth + 1 < kCapacity
  · have := hz (info.depth + 1)
    rw [chars_createChild_fst, if_neg (by omega), if_pos rfl, if_pos hd] at this
    exact absurd this (by decide)
  · have := hz (info.depth - 1)
    rw [chars_createChild_fst, if_neg (by have : kCapacity = 3 := rfl; omega),
      if_neg (by omega)] at this
    exact hlast (by have : kCapacity = 3 := rfl; omega) this

/-- An assigning `CreateChild` leaves the child Assigned or Overflowed: Assigned when it takes the
parent's `Next`, which is at least 1. -/
theorem getState_createChild_fst_of_assign
    (h : info.getState = .kAssigned ∨ info.getState = .kOverflowed)
    (hnext : info.getState = .kAssigned → info.depth < kCapacity →
      1 ≤ info.getBitString.chars info.depth) :
    (info.createChild true).1.getState = .kAssigned ∨
      (info.createChild true).1.getState = .kOverflowed := by
  by_cases ht : info.TakesNext true
  · obtain ⟨-, hd, hof, -⟩ := (takesNext_iff true).1 ht
    have ha : info.getState = .kAssigned := by
      rcases h with h | h
      · exact h
      · rw [getState_eq_overflowed_iff] at h
        simp [hof] at h
    have hpos := hnext ha hd
    left
    rw [getState_eq_assigned_iff, overflow_createChild_fst, if_pos ht, depth_createChild_fst]
    have hc : (info.createChild true).1.getBitString.chars info.depth ≠ 0 := by
      rw [chars_createChild_fst, if_pos rfl, if_pos ht]
      omega
    exact ⟨rfl, ⟨_, hc⟩, hd, fun _ => hc⟩
  · right
    rw [getState_eq_overflowed_iff, overflow_createChild_fst, if_neg ht, Bool.true_or]

/-! ### `IsSubtypeOf` -/

/-- Against an Assigned target, the check compares the source's path with the target's
characters up to the target's depth. -/
theorem isSubtypeOf_eq (source target : SubtypeCheckInfo)
    (hs : source.getState ≠ .kUninitialized) (ht : target.getState = .kAssigned) :
    source.isSubtypeOf target =
      if ∀ k < target.depth, source.getPathToRoot.chars k = target.getBitString.chars k then
        .kSubtypeOf
      else .kNotSubtypeOf := by
  have hdepth : target.depth ≤ kCapacity := ((getState_eq_assigned_iff target).1 ht).2.2.1
  have hsafe : target.getSafeDepth = target.depth := Nat.min_eq_left hdepth
  have hcmp : (source.getEncodedPathToRoot &&& target.getEncodedPathToRootMask) =
      target.getEncodedPathToRoot ↔
      ∀ k < target.depth, source.getPathToRoot.chars k = target.getBitString.chars k := by
    unfold getEncodedPathToRoot getEncodedPathToRootMask getPathToRoot
    rw [storage_and_mask, ← BitString.ext_iff, hsafe, truncate_eq_iff]
  unfold isSubtypeOf
  rw [if_neg (not_not.2 ht), if_neg hs]
  by_cases h : ∀ k < target.depth, source.getPathToRoot.chars k = target.getBitString.chars k
  · rw [if_pos (hcmp.2 h), if_pos h]
  · rw [if_neg (fun h' => h (hcmp.1 h')), if_neg h]

/-- The check reads the target only through its state, its path and its depth. -/
theorem isSubtypeOf_congr_target (source : SubtypeCheckInfo) {target target' : SubtypeCheckInfo}
    (hs : target.getState = target'.getState) (hp : target.getPathToRoot = target'.getPathToRoot)
    (hd : target.depth = target'.depth) :
    source.isSubtypeOf target = source.isSubtypeOf target' := by
  unfold isSubtypeOf getEncodedPathToRoot getEncodedPathToRootMask getSafeDepth
  rw [hs, hp, hd]

/-! ### How bits may change -/

/-- How a class's bits may change: not at all, out of Uninitialized, from Initialized into
Assigned or Overflowed, or past the path of an Assigned class. -/
def Advances (old new : SubtypeCheckInfo) : Prop :=
  old.bitstringAndOf = new.bitstringAndOf ∨
    (old.getState = .kUninitialized ∧ new.getState ≠ .kUninitialized) ∨
    (old.getState = .kInitialized ∧ (new.getState = .kAssigned ∨ new.getState = .kOverflowed)) ∨
    (old.getState = .kAssigned ∧ new.getState = .kAssigned ∧ old.getPathToRoot = new.getPathToRoot)

theorem Advances.refl (info : SubtypeCheckInfo) : Advances info info := Or.inl rfl

theorem getState_congr {a b : SubtypeCheckInfo} (hd : a.depth = b.depth)
    (h : a.bitstringAndOf = b.bitstringAndOf) : a.getState = b.getState := by
  cases a
  cases b
  simp_all

theorem getPathToRoot_congr {a b : SubtypeCheckInfo} (hd : a.depth = b.depth)
    (h : a.bitstringAndOf = b.bitstringAndOf) : a.getPathToRoot = b.getPathToRoot := by
  cases a
  cases b
  simp_all

/-- Advancing twice at one depth is advancing. -/
theorem Advances.trans {a b c : SubtypeCheckInfo} (hab' : a.depth = b.depth)
    (hbc' : b.depth = c.depth) (hab : Advances a b) (hbc : Advances b c) : Advances a c := by
  rcases hab with h | h | h | h
  · rcases hbc with h' | h' | h' | h'
    · exact Or.inl (h.trans h')
    · rw [← getState_congr hab' h] at h'
      exact Or.inr (Or.inl h')
    · rw [← getState_congr hab' h] at h'
      exact Or.inr (Or.inr (Or.inl h'))
    · rw [← getState_congr hab' h, ← getPathToRoot_congr hab' h] at h'
      exact Or.inr (Or.inr (Or.inr h'))
  · rcases hbc with h' | h' | h' | h'
    · rw [getState_congr hbc' h'] at h
      exact Or.inr (Or.inl h)
    · exact absurd h'.1 h.2
    · exact Or.inr (Or.inl ⟨h.1, by rcases h'.2 with h2 | h2 <;> rw [h2] <;> simp⟩)
    · exact Or.inr (Or.inl ⟨h.1, by rw [h'.2.1]; simp⟩)
  · rcases hbc with h' | h' | h' | h'
    · rw [getState_congr hbc' h'] at h
      exact Or.inr (Or.inr (Or.inl h))
    · rcases h.2 with h2 | h2 <;> rw [h2] at h' <;> simp at h'
    · rcases h.2 with h2 | h2 <;> rw [h2] at h' <;> simp at h'
    · exact Or.inr (Or.inr (Or.inl ⟨h.1, Or.inl h'.2.1⟩))
  · rcases hbc with h' | h' | h' | h'
    · rw [getState_congr hbc' h', getPathToRoot_congr hbc' h'] at h
      exact Or.inr (Or.inr (Or.inr h))
    · rw [h.2.1] at h'
      simp at h'
    · rw [h.2.1] at h'
      simp at h'
    · exact Or.inr (Or.inr (Or.inr ⟨h.1, h'.2.1, h.2.2.trans h'.2.2⟩))

/-- A class that is initialized stays initialized. -/
theorem Advances.getState_ne {a b : SubtypeCheckInfo} (hd : a.depth = b.depth)
    (h : Advances a b) (ha : a.getState ≠ .kUninitialized) : b.getState ≠ .kUninitialized := by
  rcases h with h | h | h | h
  · rw [← getState_congr hd h]
    exact ha
  · exact absurd h.1 ha
  · rcases h.2 with h2 | h2 <;> rw [h2] <;> simp
  · rw [h.2.1]
    simp

/-- A class that is Assigned stays Assigned with the same path. -/
theorem Advances.assigned {a b : SubtypeCheckInfo} (hd : a.depth = b.depth) (h : Advances a b)
    (ha : a.getState = .kAssigned) :
    b.getState = .kAssigned ∧ b.getPathToRoot = a.getPathToRoot := by
  rcases h with h | h | h | h
  · exact ⟨getState_congr hd h ▸ ha, (getPathToRoot_congr hd h).symm⟩
  · rw [ha] at h
    simp at h
  · rw [ha] at h
    simp at h
  · exact ⟨h.2.1, h.2.2.symm⟩

end SubtypeCheckInfo

end Art
