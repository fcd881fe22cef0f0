import Art.Base.BitUtils

/-!
# Bit strings (`libartbase/base/bit_string.h`)

A `BitString` packs up to `kCapacity = 3` characters of 12, 4 and 11 bits into the low
`BitStructSizeOf() = 27` bits of a `uint32_t`, character 0 in the least significant bits.  A
`BitStringChar` is the data of one character with the number of bits it may use.

The storage carries its bound as a field: the runtime builds every bit string from `BitString{}`
by `SetAt` and `Truncate`, which write only the first 27 bits, and keeps it in a 27-bit field of
`SubtypeCheckBits`.

`chars` reads a bit string as its sequence of characters.  `SetAt` and `Truncate` are described
on it (`chars_setAt`, `chars_truncate`), a bit string is determined by its three characters
(`eq_of_chars`), and `Length()` is the index after the last nonzero one (`length_eq`).
-/

namespace Art

/-- `BitString::kBitSizeAtPosition`. -/
def kBitSizeAtPosition : List Nat := [12, 4, 11]

/-- `BitString::kCapacity`. -/
def kCapacity : Nat := kBitSizeAtPosition.length

/-- `GetBitLengthTotalAtPosition(position)`: the widths of the characters before `position`. -/
def getBitLengthTotalAtPosition (position : Nat) : Nat := (kBitSizeAtPosition.take position).sum

def getLsbForPosition (position : Nat) : Nat := getBitLengthTotalAtPosition position

def maybeGetBitLengthAtPosition (position : Nat) : Nat := kBitSizeAtPosition.getD position 0

def bitStructSizeOf : Nat := getBitLengthTotalAtPosition kCapacity

/-! ### Where the characters lie -/

theorem getBitLengthTotalAtPosition_succ (position : Nat) :
    getBitLengthTotalAtPosition (position + 1) =
      getBitLengthTotalAtPosition position + maybeGetBitLengthAtPosition position := by
  unfold getBitLengthTotalAtPosition maybeGetBitLengthAtPosition
  rw [List.take_add_one, List.sum_append, List.getD_eq_getElem?_getD]
  cases kBitSizeAtPosition[position]? <;> simp

theorem getBitLengthTotalAtPosition_mono {i j : Nat} (h : i ≤ j) :
    getBitLengthTotalAtPosition i ≤ getBitLengthTotalAtPosition j := by
  induction j, h using Nat.le_induction with
  | base => exact le_rfl
  | succ j _ ih =>
    rw [getBitLengthTotalAtPosition_succ]
    omega

theorem getBitLengthTotalAtPosition_of_le {position : Nat} (h : kCapacity ≤ position) :
    getBitLengthTotalAtPosition position = bitStructSizeOf := by
  unfold bitStructSizeOf getBitLengthTotalAtPosition
  rw [List.take_of_length_le h,
    List.take_of_length_le (show kBitSizeAtPosition.length ≤ kCapacity from le_rfl)]

theorem maybeGetBitLengthAtPosition_of_le {position : Nat} (h : kCapacity ≤ position) :
    maybeGetBitLengthAtPosition position = 0 := by
  unfold maybeGetBitLengthAtPosition
  rw [List.getD_eq_getElem?_getD, List.getElem?_eq_none h, Option.getD_none]

/-- A character's field ends where the next one starts. -/
theorem getLsbForPosition_add_le_of_lt {i j : Nat} (h : i < j) :
    getLsbForPosition i + maybeGetBitLengthAtPosition i ≤ getLsbForPosition j := by
  unfold getLsbForPosition
  rw [← getBitLengthTotalAtPosition_succ]
  exact getBitLengthTotalAtPosition_mono h

/-- Every character's field lies inside the bit string. -/
theorem getLsbForPosition_add_le (position : Nat) :
    getLsbForPosition position + maybeGetBitLengthAtPosition position ≤ bitStructSizeOf := by
  by_cases h : position < kCapacity
  · exact getLsbForPosition_add_le_of_lt h
  · unfold getLsbForPosition
    rw [getBitLengthTotalAtPosition_of_le (by omega), maybeGetBitLengthAtPosition_of_le (by omega),
      Nat.add_zero]

theorem fields_disjoint {i j : Nat} (h : i ≠ j) :
    getLsbForPosition i + maybeGetBitLengthAtPosition i ≤ getLsbForPosition j ∨
      getLsbForPosition j + maybeGetBitLengthAtPosition j ≤ getLsbForPosition i := by
  rcases Nat.lt_or_gt_of_ne h with hij | hji
  · exact Or.inl (getLsbForPosition_add_le_of_lt hij)
  · exact Or.inr (getLsbForPosition_add_le_of_lt hji)

theorem bitStructSizeOf_eq : bitStructSizeOf = 27 := rfl

theorem maybeGetBitLengthAtPosition_lt (position : Nat) :
    maybeGetBitLengthAtPosition position < 32 := by
  have := getLsbForPosition_add_le position
  rw [bitStructSizeOf_eq] at this
  omega

theorem maybeGetBitLengthAtPosition_pos :
    ∀ {position : Nat}, position < kCapacity → 0 < maybeGetBitLengthAtPosition position
  | 0, _ => by decide
  | 1, _ => by decide
  | 2, _ => by decide
  | _ + 3, h => absurd h (by have : kCapacity = 3 := rfl; omega)

/-! ### Characters -/

structure BitStringChar where
  data : BitVec 32
  bitlength : Nat
deriving DecidableEq, Repr

namespace BitStringChar

/-- `BitStringChar()`. -/
def empty : BitStringChar := ⟨0, 0⟩

/-- `operator+`; the source checks that the sum stays within `MaximumValue()`. -/
def add (c : BitStringChar) (storage : BitVec 32) : BitStringChar :=
  ⟨c.data + storage, c.bitlength⟩

def maximumValue (c : BitStringChar) : BitStringChar := ⟨maxInt 32 c.bitlength, c.bitlength⟩

@[simp]
theorem data_add (c : BitStringChar) (storage : BitVec 32) : (c.add storage).data = c.data + storage :=
  rfl

end BitStringChar

/-! ### Bit strings -/

@[ext]
structure BitString where
  storage : BitVec 32
  storage_lt : storage.toNat < 2 ^ bitStructSizeOf

namespace BitString

/-- `BitString{}`. -/
def empty : BitString := ⟨0, by decide⟩

/-- `operator[](idx)`.  The source checks `idx < kCapacity`; a later index reads an empty field. -/
def getAt (bs : BitString) (idx : Nat) : BitStringChar :=
  ⟨bitFieldExtract bs.storage (getLsbForPosition idx) (maybeGetBitLengthAtPosition idx),
    maybeGetBitLengthAtPosition idx⟩

def setAt (bs : BitString) (idx : Nat) (bitchar : BitStringChar) : BitString :=
  ⟨bitFieldInsert bs.storage bitchar.data (getLsbForPosition idx) (maybeGetBitLengthAtPosition idx),
    toNat_bitFieldInsert_lt _ _ (getLsbForPosition_add_le idx) bs.storage_lt⟩

/-- The loop of `Length()`: how many characters are zero from index `i` down to the first
nonzero one. -/
def numTrailingZeros (bs : BitString) : Nat → Nat
  | 0 => if (bs.getAt 0).data ≠ 0 then 0 else 1
  | i + 1 => if (bs.getAt (i + 1)).data ≠ 0 then 0 else numTrailingZeros bs i + 1

def length (bs : BitString) : Nat := kCapacity - bs.numTrailingZeros (kCapacity - 1)

/-- `IsEmpty()`: `operator==` compares the storage. -/
def isEmpty (bs : BitString) : Bool := bs.storage == empty.storage

def truncate (bs : BitString) (end_ : Nat) : BitString :=
  if end_ < kCapacity then
    let lsb := getLsbForPosition end_
    let bitSize := getLsbForPosition kCapacity - lsb
    ⟨bitFieldClear bs.storage lsb bitSize,
      toNat_bitFieldClear_lt _ (by
        have := getLsbForPosition_add_le end_
        have : getLsbForPosition kCapacity = bitStructSizeOf := rfl
        omega) bs.storage_lt⟩
  else bs

/-- The characters a bit string spells, as numbers. -/
def chars (bs : BitString) (idx : Nat) : Nat := (bs.getAt idx).data.toNat

/-! ### The characters of a bit string -/

theorem chars_eq (bs : BitString) (idx : Nat) :
    bs.chars idx =
      bs.storage.toNat / 2 ^ getLsbForPosition idx % 2 ^ maybeGetBitLengthAtPosition idx :=
  toNat_bitFieldExtract _ _ (maybeGetBitLengthAtPosition_lt idx)

theorem chars_lt (bs : BitString) (idx : Nat) :
    bs.chars idx < 2 ^ maybeGetBitLengthAtPosition idx := by
  rw [chars_eq]
  exact Nat.mod_lt _ (Nat.two_pow_pos _)

theorem chars_of_le (bs : BitString) {idx : Nat} (h : kCapacity ≤ idx) : bs.chars idx = 0 := by
  have := bs.chars_lt idx
  rw [maybeGetBitLengthAtPosition_of_le h] at this
  omega

theorem data_getAt_eq_zero_iff (bs : BitString) (idx : Nat) :
    (bs.getAt idx).data = 0 ↔ bs.chars idx = 0 := by
  rw [BitVec.toNat_eq]
  rfl

@[simp]
theorem chars_setAt (bs : BitString) (idx : Nat) (bitchar : BitStringChar) (j : Nat) :
    (bs.setAt idx bitchar).chars j =
      if j = idx then bitchar.data.toNat % 2 ^ maybeGetBitLengthAtPosition idx else bs.chars j := by
  simp only [chars, getAt, setAt]
  split_ifs with h
  · subst h
    have := getLsbForPosition_add_le j
    rw [bitFieldExtract_bitFieldInsert_self _ _ (by rw [bitStructSizeOf_eq] at this; omega),
      toNat_bitFieldExtract _ _ (maybeGetBitLengthAtPosition_lt j), Nat.pow_zero, Nat.div_one]
  · rw [bitFieldExtract_bitFieldInsert_of_disjoint _ _ (fields_disjoint (Ne.symm h))]

@[simp]
theorem chars_truncate (bs : BitString) (end_ j : Nat) :
    (bs.truncate end_).chars j = if j < end_ then bs.chars j else 0 := by
  unfold truncate
  split_ifs with hend hj
  · -- the character lies under the cleared range
    simp only [chars, getAt]
    rw [bitFieldExtract_bitFieldClear_of_disjoint _ (Or.inr (getLsbForPosition_add_le_of_lt hj))]
  · -- the character lies inside the cleared range, which runs to the end of the bit string
    have hlo : getLsbForPosition end_ ≤ getLsbForPosition j :=
      getBitLengthTotalAtPosition_mono (by omega)
    have hhi : getLsbForPosition j + maybeGetBitLengthAtPosition j ≤
        getLsbForPosition end_ + (getLsbForPosition kCapacity - getLsbForPosition end_) := by
      have := getLsbForPosition_add_le j
      have := getLsbForPosition_add_le end_
      unfold getLsbForPosition at *
      rw [show getBitLengthTotalAtPosition kCapacity = bitStructSizeOf from rfl]
      omega
    simp only [chars, getAt]
    rw [bitFieldExtract_bitFieldClear_of_le _ hlo hhi]
    rfl
  · rfl
  · exact bs.chars_of_le (by omega)

@[simp]
theorem chars_empty (j : Nat) : empty.chars j = 0 := by
  rw [chars_eq]
  simp [empty]

/-- The storage is the sum of the characters at their places. -/
theorem toNat_storage (bs : BitString) :
    bs.storage.toNat = bs.chars 0 + 2 ^ 12 * bs.chars 1 + 2 ^ 16 * bs.chars 2 := by
  have h := bs.storage_lt
  rw [chars_eq, chars_eq, chars_eq]
  simp only [show getLsbForPosition 0 = 0 from rfl, show getLsbForPosition 1 = 12 from rfl,
    show getLsbForPosition 2 = 16 from rfl, show maybeGetBitLengthAtPosition 0 = 12 from rfl,
    show maybeGetBitLengthAtPosition 1 = 4 from rfl, show maybeGetBitLengthAtPosition 2 = 11 from rfl,
    bitStructSizeOf_eq, Nat.reducePow, Nat.div_one] at h ⊢
  omega

theorem eq_of_chars {a b : BitString} (h : ∀ j < kCapacity, a.chars j = b.chars j) : a = b := by
  have h0 := h 0 (by decide)
  have h1 := h 1 (by decide)
  have h2 := h 2 (by decide)
  ext1
  rw [BitVec.toNat_eq, toNat_storage, toNat_storage, h0, h1, h2]

/-- Two bit strings agree after truncation when they agree on the characters kept. -/
theorem truncate_eq_iff (a b : BitString) (end_ : Nat) :
    a.truncate end_ = b.truncate end_ ↔ ∀ k < end_, a.chars k = b.chars k := by
  constructor
  · intro h k hk
    have := congrArg (fun bs => chars bs k) h
    simpa [chars_truncate, hk] using this
  · intro h
    apply eq_of_chars
    intro j _
    rw [chars_truncate, chars_truncate]
    split_ifs with hj
    · exact h j hj
    · rfl

theorem isEmpty_iff (bs : BitString) : bs.isEmpty = true ↔ ∀ j, bs.chars j = 0 := by
  constructor
  · intro h j
    have hs : bs = empty := BitString.ext (by simpa [isEmpty] using h)
    rw [hs, chars_empty]
  · intro h
    have hs : bs = empty := eq_of_chars fun j _ => by rw [h j, chars_empty]
    simp [hs, isEmpty]

/-! ### Length -/

/-- Counting down from `i`, at least the characters from `e` up are zero. -/
theorem le_numTrailingZeros (bs : BitString) {e : Nat} :
    ∀ i, e ≤ i + 1 → (∀ j, e ≤ j → j ≤ i → bs.chars j = 0) → i + 1 - e ≤ bs.numTrailingZeros i
  | 0, he, hz => by
    unfold numTrailingZeros
    rcases Nat.eq_zero_or_pos e with rfl | hpos
    · rw [if_neg (by rw [not_not, data_getAt_eq_zero_iff]; exact hz 0 le_rfl le_rfl)]
    · omega
  | i + 1, he, hz => by
    unfold numTrailingZeros
    by_cases hei : e = i + 2
    · omega
    · rw [if_neg (by rw [not_not, data_getAt_eq_zero_iff]; exact hz (i + 1) (by omega) le_rfl)]
      have := le_numTrailingZeros bs i (by omega) fun j hj hji => hz j hj (by omega)
      omega

/-- Counting down from `i`, the characters from `e` up are zero and the one below is not. -/
theorem numTrailingZeros_eq (bs : BitString) {e : Nat} :
    ∀ i, e ≤ i + 1 → (∀ j, e ≤ j → j ≤ i → bs.chars j = 0) → (0 < e → bs.chars (e - 1) ≠ 0) →
      bs.numTrailingZeros i = i + 1 - e
  | 0, he, hz, hnz => by
    unfold numTrailingZeros
    rcases Nat.eq_zero_or_pos e with rfl | hpos
    · rw [if_neg (by rw [not_not, data_getAt_eq_zero_iff]; exact hz 0 le_rfl le_rfl)]
    · have he1 : e = 1 := by omega
      subst he1
      rw [if_pos (by rw [ne_eq, data_getAt_eq_zero_iff]; exact hnz hpos)]
  | i + 1, he, hz, hnz => by
    unfold numTrailingZeros
    by_cases hei : e = i + 2
    · subst hei
      rw [if_pos (by rw [ne_eq, data_getAt_eq_zero_iff]; exact hnz (by omega))]
      omega
    · rw [if_neg (by rw [not_not, data_getAt_eq_zero_iff]; exact hz (i + 1) (by omega) le_rfl),
        numTrailingZeros_eq bs i (by omega) (fun j hj hji => hz j hj (by omega)) hnz]
      omega

/-- `Length()` is the index after the last nonzero character. -/
theorem length_eq (bs : BitString) {e : Nat} (he : e ≤ kCapacity)
    (hz : ∀ j, e ≤ j → bs.chars j = 0) (hnz : 0 < e → bs.chars (e - 1) ≠ 0) : bs.length = e := by
  have hk : kCapacity = 3 := rfl
  unfold length
  rw [numTrailingZeros_eq bs (kCapacity - 1) (by omega) (fun j hj _ => hz j hj) hnz]
  omega

theorem length_le (bs : BitString) {e : Nat} (he : e ≤ kCapacity)
    (hz : ∀ j, e ≤ j → bs.chars j = 0) : bs.length ≤ e := by
  have hk : kCapacity = 3 := rfl
  unfold length
  have := le_numTrailingZeros bs (kCapacity - 1) (by omega) fun j hj _ => hz j hj
  omega

/-- A bit string truncated to `e` characters has length `e` exactly when its last kept character
is nonzero. -/
theorem length_truncate_eq_iff (bs : BitString) {e : Nat} (he : e ≤ kCapacity) :
    (bs.truncate e).length = e ↔ e = 0 ∨ bs.chars (e - 1) ≠ 0 := by
  have hz : ∀ j, e ≤ j → (bs.truncate e).chars j = 0 := fun j hj => by
    rw [chars_truncate, if_neg (by omega)]
  constructor
  · intro h
    by_contra hc
    simp only [not_or, ne_eq, not_not] at hc
    have hle := length_le (bs.truncate e) (e := e - 1) (by omega) fun j hj => by
      rcases Nat.eq_or_lt_of_le hj with rfl | hlt
      · rw [chars_truncate, if_pos (by omega), hc.2]
      · exact hz j (by omega)
    omega
  · intro h
    refine length_eq (bs.truncate e) he hz fun hpos => ?_
    rw [chars_truncate, if_pos (by omega)]
    omega

/-! ### The masked comparison -/

theorem getLsbD_storage_of_le (bs : BitString) {i : Nat} (h : bitStructSizeOf ≤ i) :
    bs.storage.getLsbD i = false := by
  rw [← BitVec.testBit_toNat]
  exact Nat.testBit_lt_two_pow (lt_of_lt_of_le bs.storage_lt (Nat.pow_le_pow_right (by decide) h))

/-- Masking the low `e` characters' bits is truncating to `e` characters. -/
theorem storage_and_mask (bs : BitString) (e : Nat) :
    bs.storage &&& maskLeastSignificant 32 (getBitLengthTotalAtPosition e) =
      (bs.truncate e).storage := by
  apply BitVec.eq_of_getLsbD_eq
  intro i hi
  have hlsb := getLsbForPosition_add_le e
  rw [BitVec.getLsbD_and, getLsbD_maskLeastSignificant]
  unfold truncate
  split_ifs with he
  · simp only [getLsbD_bitFieldClear]
    by_cases hs : i < bitStructSizeOf
    · unfold getLsbForPosition at *
      simp only [show getBitLengthTotalAtPosition kCapacity = bitStructSizeOf from rfl]
      by_cases hl : i < getBitLengthTotalAtPosition e
      · simp [hi, hl, show ¬getBitLengthTotalAtPosition e ≤ i by omega]
      · simp [hi, hl, show getBitLengthTotalAtPosition e ≤ i by omega,
          show i < getBitLengthTotalAtPosition e +
            (bitStructSizeOf - getBitLengthTotalAtPosition e) by omega]
    · rw [getLsbD_storage_of_le bs (by omega), Bool.false_and, Bool.false_and]
  · rw [getBitLengthTotalAtPosition_of_le (by omega)]
    by_cases hs : i < bitStructSizeOf
    · simp [hi, hs]
    · rw [getLsbD_storage_of_le bs (by omega), Bool.false_and]

end BitString

end Art
