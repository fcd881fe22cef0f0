import Art.Lib.ByteMemory

/-!
# Bit fields of a machine word (`libartbase/base/bit_utils.h`)

The bit-field helpers on an unsigned word of `w` bits, and what each does bit by bit:
`maskLeastSignificant` is `bits` low ones, `bitFieldClear` zeroes the `width` bits from `lsb`,
`bitFieldInsert` puts the low bits of `data` there, and `bitFieldExtract` reads them out to the
bottom; `clz` is `CLZ` of a `uint32_t`.  In values: an extracted field is the word shifted down
and reduced modulo `2 ^ width` (`toNat_bitFieldExtract`), and writing a field below bit `n` keeps
a word below `2 ^ n` (`toNat_bitFieldInsert_lt`).
-/

namespace Art

variable {w : Nat}

/-- `MaskLeastSignificant<T>(bits)`. -/
def maskLeastSignificant (w bits : Nat) : BitVec w :=
  if bits ≥ w then BitVec.allOnes w else ((1 : BitVec w) <<< bits) - 1

/-- `MaxInt<T>(bits)` of an unsigned `T`: the shift is done in 64 bits and cut to `T`. -/
def maxInt (w bits : Nat) : BitVec w :=
  if bits = w then BitVec.allOnes w else BitVec.ofNat w (1 <<< bits) - 1

/-- `BitFieldClear(value, lsb, width)`. -/
def bitFieldClear (value : BitVec w) (lsb width : Nat) : BitVec w :=
  value &&& ~~~(maskLeastSignificant w width <<< lsb)

/-- `BitFieldInsert(value, data, lsb, width)`. -/
def bitFieldInsert (value data : BitVec w) (lsb width : Nat) : BitVec w :=
  bitFieldClear value lsb width ||| ((data &&& maskLeastSignificant w width) <<< lsb)

/-- `BitFieldExtract(value, lsb, width)` of an unsigned word. -/
def bitFieldExtract (value : BitVec w) (lsb width : Nat) : BitVec w :=
  (value >>> lsb) &&& maskLeastSignificant w width

/-- `CLZ` of a `uint32_t`: `__builtin_clz`, which the source calls on nonzero words only. -/
def clz (x : BitVec 32) : Nat := x.clz.toNat

theorem toNat_one_of_pos (h : 0 < w) : (1 : BitVec w).toNat = 1 := by
  show (BitVec.ofNat w 1).toNat = 1
  rw [BitVec.toNat_ofNat, Nat.mod_eq_of_lt (Nat.one_lt_two_pow_iff.2 (by omega))]

theorem toNat_maskLeastSignificant {bits : Nat} (h : bits < w) :
    (maskLeastSignificant w bits).toNat = 2 ^ bits - 1 := by
  have hpow : 2 ^ bits < 2 ^ w := Nat.pow_lt_pow_right (by decide) h
  have h1 := toNat_one_of_pos (show 0 < w by omega)
  have hshift : ((1 : BitVec w) <<< bits).toNat = 2 ^ bits := by
    rw [BitVec.toNat_shiftLeft, h1, Nat.one_shiftLeft, Nat.mod_eq_of_lt hpow]
  have hone : (1 : BitVec w) ≤ (1 : BitVec w) <<< bits := by
    rw [BitVec.le_def, hshift, h1]
    exact Nat.one_le_two_pow
  unfold maskLeastSignificant
  rw [if_neg (by omega), BitVec.toNat_sub_of_le hone, hshift, h1]

@[simp]
theorem getLsbD_maskLeastSignificant (bits i : Nat) :
    (maskLeastSignificant w bits).getLsbD i = (decide (i < w) && decide (i < bits)) := by
  by_cases h : bits < w
  · rw [← BitVec.testBit_toNat, toNat_maskLeastSignificant h, Nat.testBit_two_pow_sub_one]
    by_cases hi : i < bits
    · simp [hi, show i < w by omega]
    · simp [hi]
  · unfold maskLeastSignificant
    rw [if_pos (by omega), BitVec.getLsbD_allOnes]
    by_cases hi : i < w
    · simp [hi, show i < bits by omega]
    · simp [hi]

theorem toNat_maxInt {bits : Nat} (h : bits < w) : (maxInt w bits).toNat = 2 ^ bits - 1 := by
  have hpow : 2 ^ bits < 2 ^ w := Nat.pow_lt_pow_right (by decide) h
  have h1 := toNat_one_of_pos (show 0 < w by omega)
  have hone : (1 : BitVec w) ≤ BitVec.ofNat w (1 <<< bits) := by
    rw [BitVec.le_def, BitVec.toNat_ofNat, Nat.one_shiftLeft, Nat.mod_eq_of_lt hpow, h1]
    exact Nat.one_le_two_pow
  unfold maxInt
  rw [if_neg (by omega), BitVec.toNat_sub_of_le hone, BitVec.toNat_ofNat, Nat.one_shiftLeft,
    Nat.mod_eq_of_lt hpow, h1]

theorem getLsbD_bitFieldClear (value : BitVec w) (lsb width i : Nat) :
    (bitFieldClear value lsb width).getLsbD i =
      (value.getLsbD i && !(decide (lsb ≤ i) && decide (i < lsb + width))) := by
  unfold bitFieldClear
  rw [BitVec.getLsbD_and, BitVec.getLsbD_not, BitVec.getLsbD_shiftLeft,
    getLsbD_maskLeastSignificant]
  by_cases hi : i < w
  · by_cases hlsb : lsb ≤ i
    · by_cases hwidth : i < lsb + width
      · simp [hi, hlsb, hwidth, show ¬i < lsb by omega, show i - lsb < w by omega,
          show i - lsb < width by omega]
      · simp [hi, hlsb, hwidth, show ¬i - lsb < width by omega]
    · simp [hi, hlsb, show i < lsb by omega]
  · simp [hi, BitVec.getLsbD_of_ge value i (by omega)]

theorem getLsbD_bitFieldInsert (value data : BitVec w) (lsb width : Nat) {i : Nat} (hi : i < w) :
    (bitFieldInsert value data lsb width).getLsbD i =
      if lsb ≤ i ∧ i < lsb + width then data.getLsbD (i - lsb) else value.getLsbD i := by
  unfold bitFieldInsert
  rw [BitVec.getLsbD_or, getLsbD_bitFieldClear, BitVec.getLsbD_shiftLeft, BitVec.getLsbD_and,
    getLsbD_maskLeastSignificant]
  by_cases hfield : lsb ≤ i ∧ i < lsb + width
  · simp [hfield, hi, show ¬i < lsb by omega, show i - lsb < w by omega,
      show i - lsb < width by omega]
  · rw [if_neg hfield]
    by_cases hlsb : lsb ≤ i
    · simp [hi, hlsb, show ¬i < lsb + width by omega, show ¬i - lsb < width by omega]
    · simp [hi, hlsb, show i < lsb by omega]

@[simp]
theorem getLsbD_bitFieldExtract (value : BitVec w) (lsb width i : Nat) :
    (bitFieldExtract value lsb width).getLsbD i =
      (value.getLsbD (lsb + i) && (decide (i < w) && decide (i < width))) := by
  unfold bitFieldExtract
  rw [BitVec.getLsbD_and, BitVec.getLsbD_ushiftRight, getLsbD_maskLeastSignificant]

theorem toNat_bitFieldExtract (value : BitVec w) (lsb : Nat) {width : Nat} (h : width < w) :
    (bitFieldExtract value lsb width).toNat = value.toNat / 2 ^ lsb % 2 ^ width := by
  unfold bitFieldExtract
  rw [BitVec.toNat_and, BitVec.toNat_ushiftRight, toNat_maskLeastSignificant h,
    Nat.and_two_pow_sub_one_eq_mod, Nat.shiftRight_eq_div_pow]

theorem bitFieldInsert_zero (value : BitVec w) (lsb width : Nat) :
    bitFieldInsert value 0 lsb width = bitFieldClear value lsb width := by
  simp [bitFieldInsert]

/-- Writing a field below bit `n` keeps a word below `2 ^ n`. -/
theorem toNat_bitFieldInsert_lt (value data : BitVec w) {lsb width n : Nat}
    (hn : lsb + width ≤ n) (h : value.toNat < 2 ^ n) :
    (bitFieldInsert value data lsb width).toNat < 2 ^ n := by
  apply Nat.lt_pow_two_of_testBit
  intro i hi
  rw [BitVec.testBit_toNat]
  by_cases hw : i < w
  · rw [getLsbD_bitFieldInsert value data lsb width hw, if_neg (by omega), ← BitVec.testBit_toNat]
    exact Nat.testBit_lt_two_pow (lt_of_lt_of_le h (Nat.pow_le_pow_right (by decide) hi))
  · exact BitVec.getLsbD_of_ge _ _ (by omega)

theorem toNat_bitFieldClear_lt (value : BitVec w) {lsb width n : Nat} (hn : lsb + width ≤ n)
    (h : value.toNat < 2 ^ n) : (bitFieldClear value lsb width).toNat < 2 ^ n := by
  rw [← bitFieldInsert_zero]
  exact toNat_bitFieldInsert_lt value 0 hn h

/-! ### Reading a field back -/

/-- A field reads back the low bits of what was inserted into it. -/
theorem bitFieldExtract_bitFieldInsert_self (value data : BitVec w) {lsb width : Nat}
    (h : lsb + width ≤ w) :
    bitFieldExtract (bitFieldInsert value data lsb width) lsb width =
      bitFieldExtract data 0 width := by
  apply BitVec.eq_of_getLsbD_eq
  intro i hi
  rw [getLsbD_bitFieldExtract, getLsbD_bitFieldExtract, Nat.zero_add]
  by_cases hw : i < width
  · rw [getLsbD_bitFieldInsert value data lsb width (by omega), if_pos (by omega),
      Nat.add_sub_cancel_left]
  · simp [hw]

/-- Inserting into one field leaves every field that does not overlap it as it was. -/
theorem bitFieldExtract_bitFieldInsert_of_disjoint (value data : BitVec w)
    {lsb width lsb' width' : Nat} (hd : lsb + width ≤ lsb' ∨ lsb' + width' ≤ lsb) :
    bitFieldExtract (bitFieldInsert value data lsb width) lsb' width' =
      bitFieldExtract value lsb' width' := by
  apply BitVec.eq_of_getLsbD_eq
  intro i hi
  rw [getLsbD_bitFieldExtract, getLsbD_bitFieldExtract]
  by_cases hw : i < width'
  · by_cases hin : lsb' + i < w
    · rw [getLsbD_bitFieldInsert value data lsb width hin, if_neg (by omega)]
    · rw [BitVec.getLsbD_of_ge _ _ (by omega), BitVec.getLsbD_of_ge _ _ (by omega)]
  · simp [hw]

theorem bitFieldExtract_bitFieldClear_of_disjoint (value : BitVec w)
    {lsb width lsb' width' : Nat} (hd : lsb + width ≤ lsb' ∨ lsb' + width' ≤ lsb) :
    bitFieldExtract (bitFieldClear value lsb width) lsb' width' =
      bitFieldExtract value lsb' width' := by
  rw [← bitFieldInsert_zero, bitFieldExtract_bitFieldInsert_of_disjoint value 0 hd]

/-- A field inside a cleared range reads as zero. -/
theorem bitFieldExtract_bitFieldClear_of_le (value : BitVec w) {lsb width lsb' width' : Nat}
    (hlo : lsb ≤ lsb') (hhi : lsb' + width' ≤ lsb + width) :
    bitFieldExtract (bitFieldClear value lsb width) lsb' width' = 0 := by
  apply BitVec.eq_of_getLsbD_eq
  intro i hi
  rw [getLsbD_bitFieldExtract, getLsbD_bitFieldClear]
  by_cases hw : i < width'
  · simp [show lsb ≤ lsb' + i by omega, show lsb' + i < lsb + width by omega]
  · simp [hw]

/-! ### Packing fields

A word packed from values placed side by side is read field by field: a field of an or is the or of
the fields, a value that fits its field reads back from its own place and as nothing from any field
it does not overlap.  So the round trip of a packed format is a rewrite over its fields. -/

@[simp]
theorem bitFieldExtract_zero (lsb width : Nat) : bitFieldExtract 0#w lsb width = 0#w := by
  apply BitVec.eq_of_getLsbD_eq
  intro i _
  simp

theorem toNat_bitFieldExtract_lt (value : BitVec w) (lsb width : Nat) :
    (bitFieldExtract value lsb width).toNat < 2 ^ width :=
  BitVec.toNat_lt_of_getLsbD fun j hj => by simp [getLsbD_bitFieldExtract, Nat.not_lt.2 hj]

/-- Two words with the same field agree on every bit of it. -/
theorem getLsbD_eq_of_bitFieldExtract_eq {x y : BitVec w} {lsb width i : Nat}
    (h : bitFieldExtract x lsb width = bitFieldExtract y lsb width) (h₁ : lsb ≤ i)
    (h₂ : i < lsb + width) : x.getLsbD i = y.getLsbD i := by
  have := congrArg (fun z => z.getLsbD (i - lsb)) h
  simp only [getLsbD_bitFieldExtract, show lsb + (i - lsb) = i by omega] at this
  by_cases hi : i < w
  · simpa [show i - lsb < width by omega, show i - lsb < w by omega] using this
  · rw [BitVec.getLsbD_of_ge x i (by omega), BitVec.getLsbD_of_ge y i (by omega)]

/-- A field of a field is a field of the word. -/
theorem bitFieldExtract_bitFieldExtract (value : BitVec w) {lsb width lsb' width' : Nat}
    (h : lsb' + width' ≤ width) :
    bitFieldExtract (bitFieldExtract value lsb width) lsb' width' =
      bitFieldExtract value (lsb + lsb') width' := by
  apply BitVec.eq_of_getLsbD_eq
  intro i hi
  simp only [getLsbD_bitFieldExtract]
  by_cases hw : i < width'
  · by_cases hin : lsb' + i < w
    · simp [hw, hin, hi, show lsb' + i < width by omega, Nat.add_assoc]
    · simp [hin, BitVec.getLsbD_of_ge value (lsb + (lsb' + i)) (by omega),
        BitVec.getLsbD_of_ge value (lsb + lsb' + i) (by omega)]
  · simp [hw]

theorem bitFieldExtract_or (x y : BitVec w) (lsb width : Nat) :
    bitFieldExtract (x ||| y) lsb width =
      bitFieldExtract x lsb width ||| bitFieldExtract y lsb width := by
  apply BitVec.eq_of_getLsbD_eq
  intro i _
  simp only [getLsbD_bitFieldExtract, BitVec.getLsbD_or]
  cases decide (i < w) && decide (i < width) <;> simp

/-- A field is its upper part shifted over its lower part. -/
theorem bitFieldExtract_add (value : BitVec w) (lsb a b : Nat) :
    bitFieldExtract value lsb (a + b) =
      bitFieldExtract value (lsb + a) b <<< a ||| bitFieldExtract value lsb a := by
  apply BitVec.eq_of_getLsbD_eq
  intro i hi
  simp only [BitVec.getLsbD_or, BitVec.getLsbD_shiftLeft, getLsbD_bitFieldExtract]
  by_cases ha : i < a
  · simp [ha, hi, show i < a + b by omega]
  · simp [ha, hi, show lsb + a + (i - a) = lsb + i by omega, show i - a < b ↔ i < a + b by omega,
      show i - a < w by omega]

/-- A value that fits its field reads back from its own place. -/
theorem bitFieldExtract_shiftLeft {data : BitVec w} {lsb width : Nat}
    (hd : data.toNat < 2 ^ width) (hw : lsb + width ≤ w) :
    bitFieldExtract (data <<< lsb) lsb width = data := by
  apply BitVec.eq_of_getLsbD_eq
  intro i hi
  simp only [getLsbD_bitFieldExtract, BitVec.getLsbD_shiftLeft]
  by_cases hiw : i < width
  · simp [hiw, hi, show lsb + i < w by omega]
  · simp [hiw, BitVec.getLsbD_eq_false_of_toNat_lt hd (Nat.not_lt.1 hiw)]

/-- A value placed in a field reads as nothing from a field it does not overlap. -/
theorem bitFieldExtract_shiftLeft_of_disjoint {data : BitVec w} {lsb width lsb' width' : Nat}
    (hd : data.toNat < 2 ^ width') (h : lsb + width ≤ lsb' ∨ lsb' + width' ≤ lsb) :
    bitFieldExtract (data <<< lsb') lsb width = 0#w := by
  apply BitVec.eq_of_getLsbD_eq
  intro i _
  simp only [getLsbD_bitFieldExtract, BitVec.getLsbD_shiftLeft, BitVec.getLsbD_zero]
  by_cases hiw : i < width
  · -- the bit lies below the other field, or past what the value holds
    rcases h with h | h
    · simp [show lsb + i < lsb' by omega]
    · simp [BitVec.getLsbD_eq_false_of_toNat_lt hd (show width' ≤ lsb + i - lsb' by omega)]
  · simp [hiw]

/-- A value that fits its field, placed at bit `0`. -/
theorem bitFieldExtract_of_lt {data : BitVec w} {width : Nat} (hd : data.toNat < 2 ^ width)
    (hw : width ≤ w) : bitFieldExtract data 0 width = data := by
  simpa using bitFieldExtract_shiftLeft hd (show 0 + width ≤ w by omega)

/-- A value at bit `0` that fits below a field reads as nothing from it. -/
theorem bitFieldExtract_of_disjoint {data : BitVec w} {lsb width width' : Nat}
    (hd : data.toNat < 2 ^ width') (h : width' ≤ lsb) : bitFieldExtract data lsb width = 0#w := by
  simpa using bitFieldExtract_shiftLeft_of_disjoint hd
    (show lsb + width ≤ 0 ∨ 0 + width' ≤ lsb from .inr (by omega))

/-- A value at most `MaskLeastSignificant(bits)` is one that fits `bits` bits. -/
theorem le_maskLeastSignificant_iff {data : BitVec w} {bits : Nat} (h : bits < w) :
    data ≤ maskLeastSignificant w bits ↔ data.toNat < 2 ^ bits := by
  have := Nat.one_le_two_pow (n := bits)
  rw [BitVec.le_def, toNat_maskLeastSignificant h]
  omega

/-- `data & ~MaskLeastSignificant(bits)` is `0` when `data` fits `bits` bits. -/
theorem and_not_maskLeastSignificant_eq_zero_iff (data : BitVec w) (bits : Nat) :
    data &&& ~~~maskLeastSignificant w bits = 0#w ↔ data.toNat < 2 ^ bits := by
  constructor
  · intro h
    apply BitVec.toNat_lt_of_getLsbD
    intro i hi
    have := congrArg (fun y => y.getLsbD i) h
    simp only [BitVec.getLsbD_and, BitVec.getLsbD_not, getLsbD_maskLeastSignificant,
      BitVec.getLsbD_zero] at this
    by_cases hw : i < w
    · simpa [hw, Nat.not_lt.2 hi] using this
    · exact BitVec.getLsbD_of_ge data i (by omega)
  · intro h
    apply BitVec.eq_of_getLsbD_eq
    intro i hi
    by_cases hin : i < bits
    · simp [hin]
    · simp [BitVec.getLsbD_eq_false_of_toNat_lt h (Nat.not_lt.1 hin)]

/-- A word is a multiple of `2 ^ n` when its low `n` bits are clear. -/
theorem toNat_mod_two_pow_eq_zero_iff (x : BitVec w) (n : Nat) :
    x.toNat % 2 ^ n = 0 ↔ ∀ i < n, x.getLsbD i = false := by
  constructor
  · intro h i hi
    have := Nat.testBit_mod_two_pow x.toNat n i
    rw [h, Nat.zero_testBit, BitVec.testBit_toNat] at this
    simpa [hi] using this.symm
  · intro h
    apply Nat.eq_of_testBit_eq
    intro i
    rw [Nat.testBit_mod_two_pow, Nat.zero_testBit, BitVec.testBit_toNat]
    by_cases hi : i < n
    · simp [hi, h i hi]
    · simp [hi]

theorem toNat_lt_two_pow_iff (x : BitVec w) (n : Nat) :
    x.toNat < 2 ^ n ↔ ∀ i, n ≤ i → x.getLsbD i = false :=
  ⟨fun h _ hi => BitVec.getLsbD_eq_false_of_toNat_lt h hi, BitVec.toNat_lt_of_getLsbD⟩

end Art
