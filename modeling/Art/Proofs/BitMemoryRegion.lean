import Art.Base.BitMemoryRegion
import Art.Lib.Lex

/-!
# `BitMemoryRegion` loads what it stores

`LoadBits` returns the bits of memory from the region's start plus the offset
(`getLsbD_loadBits`): the aligned word holding the first bit gives the bits up to its end, and
the next word, shifted in by `(width - shift) & (width - 1)`, the rest.  `StoreBits` writes the
bits of its value there and leaves every other bit as it was (`bit_storeBits`), so a load after a
store reads the value back.  The chunked loops visit `chunks`, which tile the range; on it
`StoreBits` from a region copies and `OrBits` ors in every bit of a source that does not overlap
the destination, `PopCount` counts the set bits, and `Compare` is the comparison of the sizes and
then of the chunks, a total order that is `0` exactly on regions of equal size and bits.
-/

namespace Art

open ByteMemory

namespace BitMemoryRegion

section LoadStore

theorem getLsbD_clear {w n i : Nat} (hn : 0 < n) :
    ((BitVec.allOnes w <<< 1) <<< (n - 1)).getLsbD i = (decide (i < w) && decide (n ≤ i)) := by
  simp only [BitVec.getLsbD_shiftLeft, BitVec.getLsbD_allOnes]
  by_cases hi : i < w
  · simp only [hi, decide_true, Bool.true_and]
    by_cases hni : n ≤ i <;> simp [hni] <;> omega
  · simp [hi]

theorem getLsbD_loadBits {k : Nat} (hk : 3 ≤ k) (mem : ByteMemory) (r : BitMemoryRegion)
    {bitOffset bitLength : Nat} (hlen : bitLength ≤ 2 ^ k) (i : Nat) :
    (loadBits (2 ^ k) mem r bitOffset bitLength).getLsbD i =
      (decide (i < bitLength) && mem.bit (r.bitStart + bitOffset + i)) := by
  unfold loadBits
  split
  · rename_i h0
    simp [h0]
  rename_i h0
  have h8 : 8 ∣ 2 ^ k := Nat.pow_dvd_pow 2 hk
  have hw : 0 < 2 ^ k := Nat.two_pow_pos k
  set width := 2 ^ k with hwidth
  set o := r.bitStart + bitOffset
  have hshift : o % width < width := Nat.mod_lt _ hw
  have ho : o / width * width + o % width = o := Nat.div_add_mod' o width
  have hmask : (width - o % width) &&& (width - 1) = (width - o % width) % width :=
    Nat.and_two_pow_sub_one_eq_mod _ _
  simp only [BitVec.getLsbD_and, BitVec.getLsbD_or, BitVec.getLsbD_not, BitVec.getLsbD_ushiftRight,
    BitVec.getLsbD_shiftLeft, getLsbD_clear (Nat.pos_of_ne_zero h0), getLsbD_loadWord mem h8, hmask]
  by_cases hi : i < bitLength
  swap
  · simp [hi, show bitLength ≤ i by omega]
  have hiw : i < width := by omega
  have hlow : o / width * width + (o % width + i) = o + i := by omega
  simp only [hi, hiw, decide_true, Bool.true_and, show ¬ bitLength ≤ i by omega, decide_false,
    Bool.not_false, Bool.and_true]
  by_cases hs0 : o % width = 0
  · -- the first bit is a word's first: one word holds them all
    have hextra : (o % width + (bitLength - 1)) / width = 0 := Nat.div_eq_of_lt (by omega)
    have hsame : (o / width + (o % width + (bitLength - 1)) / width) * width +
        (i - (width - o % width) % width) = o + i := by
      rw [hextra, hs0, Nat.sub_zero, Nat.mod_self, Nat.add_zero, Nat.sub_zero]
      omega
    rw [hlow, hsame]
    cases mem.bit (o + i) <;> simp [hs0, hiw]
  · have hs : (width - o % width) % width = width - o % width := Nat.mod_eq_of_lt (by omega)
    rw [hs]
    by_cases hsi : o % width + i < width
    · -- the bit is in the first word
      simp [hsi, hlow, show i < width - o % width by omega]
    · -- the bit is in the next word
      have hextra : (o % width + (bitLength - 1)) / width = 1 :=
        Nat.div_eq_of_lt_le (by omega) (by omega)
      have hhigh : (o / width + 1) * width + (i - (width - o % width)) = o + i := by
        rw [Nat.add_mul, Nat.one_mul]
        omega
      simp [hsi, hextra, hhigh, show ¬ i < width - o % width by omega,
        show i - (width - o % width) < width by omega]

theorem bit_updateByte (mem : ByteMemory) (index : Nat) (clear set : BitVec 32) (p : Nat) :
    (updateByte mem index clear set).bit p =
      if p / 8 = index then (mem.bit p && !clear.getLsbD (p % 8) || set.getLsbD (p % 8))
      else mem.bit p := by
  have hp : p % 8 < 8 := Nat.mod_lt _ (by decide)
  unfold updateByte
  rw [bit_update, Function.update_self]
  split
  · rename_i h
    subst h
    simp [ByteMemory.bit, hp, show p % 8 < 32 by omega]
  · rename_i h
    rw [bit_update, if_neg h]

/-- The bits `StoreBits` writes with `mask` of `bitLength` ones: the set bits of the shifted
value replace the cleared ones. -/
theorem bit_storeBitsLoop {bitLength : Nat} {mask value : BitVec 32}
    (hmask : ∀ j, mask.getLsbD j = decide (j < bitLength))
    (hvalue : ∀ j, bitLength ≤ j → value.getLsbD j = false) (o : Nat) :
    ∀ (mem : ByteMemory) (index finishedBits : Nat), index * 8 = o + finishedBits → ∀ p,
      (storeBitsLoop mask value bitLength mem index finishedBits).bit p =
        if index * 8 ≤ p ∧ p < o + bitLength then value.getLsbD (p - o) else mem.bit p := by
  intro mem index finishedBits hindex p
  induction mem, index, finishedBits using storeBitsLoop.induct mask value bitLength with
  | case1 mem index finishedBits hlt mem' ih =>
    rw [storeBitsLoop, if_pos hlt]
    simp only [kBitsPerByte] at ih ⊢
    rw [ih (by omega)]
    simp only [mem', bit_updateByte, BitVec.getLsbD_ushiftRight, hmask]
    by_cases hnext : (index + 1) * 8 ≤ p
    · simp only [hnext, true_and, show index * 8 ≤ p by omega, show p / 8 ≠ index by omega,
        if_false]
    by_cases hbyte : p / 8 = index
    · -- the byte written in this step
      have hp : finishedBits + p % 8 = p - o := by omega
      rw [if_neg (fun h => hnext h.1), if_pos hbyte, hp]
      by_cases hin : p < o + bitLength
      · simp [hin, show index * 8 ≤ p by omega, show p - o < bitLength by omega]
      · simp [hin, show ¬ p - o < bitLength by omega, hvalue (p - o) (by omega)]
    · rw [if_neg (fun h => hnext h.1), if_neg hbyte, if_neg (by omega)]
  | case2 mem index finishedBits hge =>
    rw [storeBitsLoop, if_neg hge, if_neg (by omega)]

theorem bit_storeBits (mem : ByteMemory) (r : BitMemoryRegion) (bitOffset : Nat) {value : BitVec 32}
    {bitLength : Nat} (hlen : bitLength ≤ 32) (hvalue : value.toNat < 2 ^ bitLength) (p : Nat) :
    (storeBits mem r bitOffset value bitLength).bit p =
      if r.bitStart + bitOffset ≤ p ∧ p < r.bitStart + bitOffset + bitLength then
        value.getLsbD (p - (r.bitStart + bitOffset))
      else mem.bit p := by
  unfold storeBits
  split
  · rename_i h0
    rw [if_neg (by omega)]
  set o := r.bitStart + bitOffset
  have hmask : ∀ j, (BitVec.allOnes 32 >>> (32 - bitLength)).getLsbD j = decide (j < bitLength) := by
    intro j
    rw [BitVec.getLsbD_ushiftRight, BitVec.getLsbD_allOnes, decide_eq_decide]
    omega
  have hv := fun j (hj : bitLength ≤ j) => BitVec.getLsbD_eq_false_of_toNat_lt hvalue hj
  simp only [kBitsPerByte]
  rw [bit_storeBitsLoop hmask hv o _ _ _ (by omega)]
  simp only [bit_updateByte, BitVec.getLsbD_shiftLeft, hmask]
  by_cases hnext : (o / 8 + 1) * 8 ≤ p
  · simp only [hnext, true_and, show o ≤ p by omega, show p / 8 ≠ o / 8 by omega, if_false]
  by_cases hbyte : p / 8 = o / 8
  · -- the first byte: the bits from the start's place in it
    rw [if_neg (fun h => hnext h.1), if_pos hbyte]
    by_cases hin : o ≤ p ∧ p < o + bitLength
    · simp [hin, show p % 8 < 32 by omega, show ¬ p % 8 < o % 8 by omega,
        show p % 8 - o % 8 = p - o by omega, show p - o < bitLength by omega]
    · rw [if_neg hin]
      by_cases hlo : p < o
      · simp [show p % 8 < o % 8 by omega]
      · simp [show ¬ p % 8 < o % 8 by omega, show p % 8 - o % 8 = p - o by omega,
          show ¬ p - o < bitLength by omega, hv (p - o) (by omega)]
  · rw [if_neg (fun h => hnext h.1), if_neg hbyte, if_neg (by omega)]

/-- `StoreBit` changes its one bit. -/
theorem bit_storeBit (mem : ByteMemory) (r : BitMemoryRegion) (bitOffset : Nat) (value : Bool)
    (p : Nat) :
    (storeBit mem r bitOffset value).bit p =
      if p = r.bitStart + bitOffset then value else mem.bit p := by
  unfold storeBit ByteMemory.bit
  simp only [kBitsPerByte]
  set o := r.bitStart + bitOffset
  by_cases hbyte : p / 8 = o / 8
  · rw [hbyte, Function.update_self, Function.update_self]
    have hp8 : p % 8 < 8 := Nat.mod_lt _ (by decide)
    by_cases hp : p = o
    · subst hp
      cases value <;> simp [hp8]
    · -- another bit of the same byte: the cleared and the set bit are at `o % 8` only
      have hsub : p % 8 - o % 8 = 0 ↔ p % 8 < o % 8 := by omega
      rw [if_neg hp]
      cases value <;> simp [hp8, hsub]
  · rw [Function.update_of_ne hbyte, Function.update_of_ne hbyte, if_neg (by omega)]

/-- A load after a store reads the value back, for a `Result` of any width the length fits. -/
theorem loadBits_storeBits {k : Nat} (hk : 3 ≤ k) (mem : ByteMemory) (r : BitMemoryRegion)
    (bitOffset : Nat) {value : BitVec 32} {bitLength : Nat} (hlen : bitLength ≤ 32)
    (hwidth : bitLength ≤ 2 ^ k) (hvalue : value.toNat < 2 ^ bitLength) :
    loadBits (2 ^ k) (storeBits mem r bitOffset value bitLength) r bitOffset bitLength =
      value.setWidth (2 ^ k) := by
  apply BitVec.eq_of_getLsbD_eq
  intro i hi
  rw [getLsbD_loadBits hk _ r hwidth, BitVec.getLsbD_setWidth, decide_eq_true hi, Bool.true_and]
  by_cases hil : i < bitLength
  · rw [bit_storeBits mem r bitOffset hlen hvalue, if_pos (by omega), Nat.add_sub_cancel_left]
    simp [hil]
  · simp [hil, BitVec.getLsbD_eq_false_of_toNat_lt hvalue (Nat.le_of_not_lt hil)]

end LoadStore

section Chunks

/-- The chunks the loops visit from `bit`: whole `uint32_t` chunks, then the rest. -/
def chunks (bitLength bit : Nat) : List (Nat × Nat) :=
  if bit + kNumBits ≤ bitLength then (bit, kNumBits) :: chunks bitLength (bit + kNumBits)
  else [(bit, bitLength - bit)]
termination_by bitLength - bit
decreasing_by unfold kNumBits at *; omega

/-- The invariant rule of the loops that run to the end: what each chunk carries from its start
to its end holds from `bit` to the end of the range. -/
theorem forEachChunk_rule {σ : Type} {bitLength : Nat} {body : Nat → Nat → σ → σ}
    (P : Nat → σ → Prop)
    (hstep : ∀ bit n s, bit + n ≤ bitLength → n ≤ kNumBits → P bit s → P (bit + n) (body bit n s)) :
    ∀ bit s, bit ≤ bitLength → P bit s → P bitLength (forEachChunk bitLength body bit s) := by
  intro bit s hbit hs
  induction bit, s using forEachChunk.induct bitLength body with
  | case1 bit s h ih =>
    rw [forEachChunk, if_pos h]
    exact ih h (hstep bit kNumBits s h (Nat.le_refl _) hs)
  | case2 bit s h =>
    rw [forEachChunk, if_neg h]
    have hend := hstep bit (bitLength - bit) s (by omega) (by omega) hs
    rwa [Nat.add_sub_cancel' hbit] at hend

theorem firstChunk_eq_findSome? {α : Type} (bitLength : Nat) (body : Nat → Nat → Option α)
    (bit : Nat) : firstChunk bitLength body bit = (chunks bitLength bit).findSome? fun c => body c.1 c.2 := by
  rw [firstChunk, chunks]
  split
  · rw [List.findSome?_cons, firstChunk_eq_findSome? bitLength body (bit + kNumBits)]
    rfl
  · simp
termination_by bitLength - bit
decreasing_by unfold kNumBits at *; omega

theorem mem_chunks {bitLength bit : Nat} (hbit : bit ≤ bitLength) {c : Nat × Nat}
    (hc : c ∈ chunks bitLength bit) : bit ≤ c.1 ∧ c.1 + c.2 ≤ bitLength ∧ c.2 ≤ kNumBits := by
  rw [chunks] at hc
  split at hc
  · rename_i h
    rcases List.mem_cons.mp hc with rfl | hc
    · exact ⟨Nat.le_refl _, h, Nat.le_refl _⟩
    · obtain ⟨h1, h2, h3⟩ := mem_chunks (by omega) hc
      exact ⟨by omega, h2, h3⟩
  · rename_i h
    rw [List.mem_singleton] at hc
    subst hc
    exact ⟨Nat.le_refl _, by omega, by omega⟩
termination_by bitLength - bit
decreasing_by unfold kNumBits at *; omega

theorem exists_chunk {bitLength bit i : Nat} (hi : bit ≤ i) (hlt : i < bitLength) :
    ∃ c ∈ chunks bitLength bit, c.1 ≤ i ∧ i < c.1 + c.2 := by
  rw [chunks]
  split
  · rename_i h
    by_cases hfirst : i < bit + kNumBits
    · exact ⟨_, List.mem_cons_self, hi, hfirst⟩
    · obtain ⟨c, hc, hci⟩ := exists_chunk (show bit + kNumBits ≤ i by omega) hlt
      exact ⟨c, List.mem_cons_of_mem _ hc, hci⟩
  · exact ⟨_, List.mem_singleton_self _, hi, by omega⟩
termination_by bitLength - bit
decreasing_by unfold kNumBits at *; omega

theorem forall_chunks_iff {bitLength : Nat} {P : Nat → Prop} :
    (∀ c ∈ chunks bitLength 0, ∀ j < c.2, P (c.1 + j)) ↔ ∀ i < bitLength, P i := by
  constructor
  · intro h i hi
    obtain ⟨c, hc, hci⟩ := exists_chunk (Nat.zero_le i) hi
    have := h c hc (i - c.1) (by omega)
    rwa [Nat.add_sub_cancel' hci.1] at this
  · intro h c hc j hj
    exact h _ (by have := mem_chunks (Nat.zero_le bitLength) hc; omega)

theorem exists_chunks_iff {bitLength : Nat} {P : Nat → Prop} :
    (∃ c ∈ chunks bitLength 0, ∃ j < c.2, P (c.1 + j)) ↔ ∃ i < bitLength, P i := by
  constructor
  · rintro ⟨c, hc, j, hj, hP⟩
    exact ⟨c.1 + j, by have := mem_chunks (Nat.zero_le bitLength) hc; omega, hP⟩
  · rintro ⟨i, hi, hP⟩
    obtain ⟨c, hc, hci⟩ := exists_chunk (Nat.zero_le i) hi
    exact ⟨c, hc, i - c.1, by omega, by rwa [Nat.add_sub_cancel' hci.1]⟩

end Chunks

section Loops

variable (mem : ByteMemory)

theorem getLsbD_loadBits_chunk (r : BitMemoryRegion) (bitOffset : Nat) {n : Nat}
    (hn : n ≤ kNumBits) (i : Nat) :
    (loadBits kSizeTBits mem r bitOffset n).getLsbD i =
      (decide (i < n) && mem.bit (r.bitStart + bitOffset + i)) :=
  getLsbD_loadBits (k := 6) (by decide) mem r (by unfold kNumBits at hn; omega) i

theorem toNat_cpop_loadBits_chunk (r : BitMemoryRegion) (bitOffset : Nat) {n : Nat}
    (hn : n ≤ kNumBits) :
    (loadBits kSizeTBits mem r bitOffset n).cpop.toNat =
      (List.range n).countP fun j => mem.bit (r.bitStart + bitOffset + j) := by
  rw [BitVec.toNat_cpop_eq_countP]
  have hbits : (loadBits kSizeTBits mem r bitOffset n).getLsbD =
      fun j => decide (j < n) && mem.bit (r.bitStart + bitOffset + j) :=
    funext (getLsbD_loadBits_chunk mem r bitOffset hn)
  rw [hbits, countP_range_and_lt (by unfold kSizeTBits; unfold kNumBits at hn; omega)]

theorem popCount_eq_countP (r : BitMemoryRegion) (bitOffset bitLength : Nat) :
    popCount mem r bitOffset bitLength =
      (List.range bitLength).countP fun i => mem.bit (r.bitStart + bitOffset + i) := by
  unfold popCount
  refine forEachChunk_rule (fun bit count =>
    count = (List.range bit).countP fun i => mem.bit (r.bitStart + bitOffset + i)) ?_ 0 0
    (Nat.zero_le _) rfl
  intro bit n count _ hn hcount
  rw [hcount, toNat_cpop_loadBits_chunk mem r _ hn, List.range_add, List.countP_append,
    List.countP_map]
  congr 1
  exact List.countP_congr fun j _ => by simp only [Function.comp_apply, Nat.add_assoc]

theorem loadBits_chunk_ne_zero_iff (r : BitMemoryRegion) (bitOffset : Nat) {n : Nat}
    (hn : n ≤ kNumBits) :
    loadBits kSizeTBits mem r bitOffset n ≠ 0 ↔ ∃ j < n, mem.bit (r.bitStart + bitOffset + j) = true := by
  constructor
  · intro h
    by_contra hnone
    apply h
    apply BitVec.eq_of_getLsbD_eq
    intro j _
    rw [getLsbD_loadBits_chunk mem r bitOffset hn]
    by_cases hj : j < n
    · simpa [hj] using fun hb => hnone ⟨j, hj, hb⟩
    · simp [hj]
  · rintro ⟨j, hj, hb⟩ h0
    have hbit := congrArg (fun x : BitVec kSizeTBits => x.getLsbD j) h0
    simp [getLsbD_loadBits_chunk mem r bitOffset hn, hj, hb] at hbit

theorem getD_findSome?_ite_true {β : Type} (p : β → Bool) :
    ∀ l : List β, (l.findSome? fun c => if p c then some true else none).getD false = l.any p
  | [] => rfl
  | c :: l => by
    rw [List.findSome?_cons, List.any_cons]
    cases p c
    · simp only [Bool.false_eq_true, if_false, Bool.false_or]
      exact getD_findSome?_ite_true p l
    · rfl

theorem hasSomeBitSet_eq_any (r : BitMemoryRegion) (bitOffset bitLength : Nat) :
    hasSomeBitSet mem r bitOffset bitLength =
      (List.range bitLength).any fun i => mem.bit (r.bitStart + bitOffset + i) := by
  unfold hasSomeBitSet
  rw [firstChunk_eq_findSome?, getD_findSome?_ite_true, Bool.eq_iff_iff, List.any_eq_true,
    List.any_eq_true]
  simp only [List.mem_range, bne_iff_ne, ne_eq]
  rw [← exists_chunks_iff]
  have hpos : ∀ c j : Nat, r.bitStart + (bitOffset + c) + j = r.bitStart + bitOffset + (c + j) :=
    fun c j => by omega
  constructor
  · rintro ⟨c, hc, hne⟩
    obtain ⟨j, hj, hb⟩ := (loadBits_chunk_ne_zero_iff mem r _ (mem_chunks (Nat.zero_le _) hc).2.2).mp hne
    exact ⟨c, hc, j, hj, hpos c.1 j ▸ hb⟩
  · rintro ⟨c, hc, j, hj, hb⟩
    refine ⟨c, hc, (loadBits_chunk_ne_zero_iff mem r _ (mem_chunks (Nat.zero_le _) hc).2.2).mpr ?_⟩
    exact ⟨j, hj, (hpos c.1 j).symm ▸ hb⟩

/-- `m` is `mem` with the `len` bits from `base` replaced by `g`. -/
def RangeWritten (m : ByteMemory) (base len : Nat) (g : Nat → Bool) : Prop :=
  ∀ p, m.bit p = if base ≤ p ∧ p < base + len then g p else mem.bit p

theorem rangeWritten_zero (base : Nat) (g : Nat → Bool) : RangeWritten mem mem base 0 g := by
  intro p
  rw [if_neg (by omega)]

theorem RangeWritten.bit_eq {m : ByteMemory} {base len : Nat} {g : Nat → Bool}
    (h : RangeWritten mem m base len g) {p : Nat} (hp : p < base ∨ base + len ≤ p) :
    m.bit p = mem.bit p := by
  rw [h p, if_neg (by omega)]

/-- One chunk of the region loops: storing the next `n` bits of `g` extends the written range. -/
theorem RangeWritten.storeBits {m : ByteMemory} {base bit : Nat} {g : Nat → Bool}
    (h : RangeWritten mem m base bit g) (r : BitMemoryRegion) {bitOffset n : Nat}
    (hoff : r.bitStart + bitOffset = base + bit) (hn : n ≤ kNumBits) {value : BitVec 32}
    (hval : ∀ j, value.getLsbD j = (decide (j < n) && g (base + bit + j))) :
    RangeWritten mem (storeBits m r bitOffset value n) base (bit + n) g := by
  have hlt : value.toNat < 2 ^ n :=
    BitVec.toNat_lt_of_getLsbD fun j hj => by simp [hval, Nat.not_lt.mpr hj]
  intro p
  rw [bit_storeBits m r bitOffset (by unfold kNumBits at hn; omega) hlt, hoff]
  by_cases hin : base + bit ≤ p ∧ p < base + bit + n
  · rw [if_pos hin, if_pos (by omega), hval, decide_eq_true (by omega), Bool.true_and]
    congr 1
    omega
  · rw [if_neg hin, h p]
    by_cases hbefore : base ≤ p ∧ p < base + bit
    · rw [if_pos hbefore, if_pos (by omega)]
    · rw [if_neg hbefore, if_neg (by omega)]

/-- `StoreBits` from a region whose bits do not overlap the destination's copies them. -/
theorem rangeWritten_storeBitsRegion (r : BitMemoryRegion) (bitOffset : Nat)
    (src : BitMemoryRegion) (bitLength : Nat)
    (hdisj : src.bitStart + bitLength ≤ r.bitStart + bitOffset ∨
      r.bitStart + bitOffset + bitLength ≤ src.bitStart) :
    RangeWritten mem (storeBitsRegion mem r bitOffset src bitLength) (r.bitStart + bitOffset)
      bitLength fun p => mem.bit (src.bitStart + (p - (r.bitStart + bitOffset))) := by
  unfold storeBitsRegion
  refine forEachChunk_rule (fun bit m => RangeWritten mem m (r.bitStart + bitOffset) bit
    fun p => mem.bit (src.bitStart + (p - (r.bitStart + bitOffset)))) ?_ 0 mem (Nat.zero_le _)
    (rangeWritten_zero mem _ _)
  intro bit n m hbn hn hm
  refine hm.storeBits mem r (by omega) hn fun j => ?_
  rw [BitVec.getLsbD_setWidth, getLsbD_loadBits_chunk m src bit hn]
  by_cases hj : j < n
  · -- the source bit has not been written yet: the ranges do not overlap
    rw [hm.bit_eq mem (by omega), show r.bitStart + bitOffset + bit + j - (r.bitStart + bitOffset) =
      bit + j by omega, Nat.add_assoc src.bitStart]
    simp [hj, show j < 32 by unfold kNumBits at hn; omega]
  · simp [hj]

/-- `StoreBits` from a region in memory of its own copies it. -/
theorem rangeWritten_storeBitsFrom (r : BitMemoryRegion) (bitOffset : Nat) (srcMem : ByteMemory)
    (src : BitMemoryRegion) (bitLength : Nat) :
    RangeWritten mem (storeBitsFrom mem r bitOffset srcMem src bitLength) (r.bitStart + bitOffset)
      bitLength fun p => srcMem.bit (src.bitStart + (p - (r.bitStart + bitOffset))) := by
  unfold storeBitsFrom
  refine forEachChunk_rule (fun bit m => RangeWritten mem m (r.bitStart + bitOffset) bit
    fun p => srcMem.bit (src.bitStart + (p - (r.bitStart + bitOffset)))) ?_ 0 mem (Nat.zero_le _)
    (rangeWritten_zero mem _ _)
  intro bit n m hbn hn hm
  refine hm.storeBits mem r (by omega) hn fun j => ?_
  rw [BitVec.getLsbD_setWidth, getLsbD_loadBits_chunk srcMem src bit hn]
  by_cases hj : j < n
  · rw [show r.bitStart + bitOffset + bit + j - (r.bitStart + bitOffset) = bit + j by omega,
      Nat.add_assoc src.bitStart]
    simp [hj, show j < 32 by unfold kNumBits at hn; omega]
  · simp [hj]

/-- `OrBits` from a region whose bits do not overlap the destination's ors them in. -/
theorem rangeWritten_orBits (r : BitMemoryRegion) (bitOffset : Nat) (src : BitMemoryRegion)
    (bitLength : Nat)
    (hdisj : src.bitStart + bitLength ≤ r.bitStart + bitOffset ∨
      r.bitStart + bitOffset + bitLength ≤ src.bitStart) :
    RangeWritten mem (orBits mem r bitOffset src bitLength) (r.bitStart + bitOffset) bitLength
      fun p => mem.bit p || mem.bit (src.bitStart + (p - (r.bitStart + bitOffset))) := by
  unfold orBits
  refine forEachChunk_rule (fun bit m => RangeWritten mem m (r.bitStart + bitOffset) bit
    fun p => mem.bit p || mem.bit (src.bitStart + (p - (r.bitStart + bitOffset)))) ?_ 0 mem
    (Nat.zero_le _) (rangeWritten_zero mem _ _)
  intro bit n m hbn hn hm
  refine hm.storeBits mem r (by omega) hn fun j => ?_
  rw [BitVec.getLsbD_setWidth, BitVec.getLsbD_or, getLsbD_loadBits_chunk m r _ hn,
    getLsbD_loadBits_chunk m src bit hn]
  by_cases hj : j < n
  · -- neither the old bit nor the source bit has been written yet
    rw [hm.bit_eq mem (by omega), hm.bit_eq mem (by omega), show r.bitStart + bitOffset + bit + j -
      (r.bitStart + bitOffset) = bit + j by omega, Nat.add_assoc src.bitStart,
      ← Nat.add_assoc r.bitStart]
    simp [hj, show j < 32 by unfold kNumBits at hn; omega]
  · simp [hj]

end Loops

section Compare

variable (mem : ByteMemory)

/-- The chunks of `bitLength` bits of a region as `Compare` loads them. -/
def chunkValues (x : BitMemoryRegion) (bitLength : Nat) : List Nat :=
  (chunks bitLength 0).map fun c => ((loadBits kSizeTBits mem x c.1 c.2).setWidth 32).toNat

theorem length_chunkValues (x y : BitMemoryRegion) (bitLength : Nat) :
    (chunkValues mem x bitLength).length = (chunkValues mem y bitLength).length := by
  simp [chunkValues]

/-- On regions of one size `Compare` compares the chunks by their first difference. -/
theorem compare_eq_lexCompare {lhs rhs : BitMemoryRegion} (h : lhs.bitSize = rhs.bitSize) :
    compare mem lhs rhs =
      lexCompare (chunkValues mem lhs lhs.bitSize) (chunkValues mem rhs lhs.bitSize) := by
  have hchunk : (fun c : Nat × Nat => compareChunk mem lhs rhs c.1 c.2) = fun c =>
      let f := fun x : BitMemoryRegion => ((loadBits kSizeTBits mem x c.1 c.2).setWidth 32).toNat
      if f lhs ≠ f rhs then some (if f lhs < f rhs then (-1 : Int) else 1) else none := by
    funext c
    simp only [compareChunk, bne_iff_ne, ne_eq, ← BitVec.toNat_inj, BitVec.lt_def]
  unfold compare
  rw [if_neg (by simp [h]), firstChunk_eq_findSome?, hchunk]
  exact getD_findSome?_eq_lexCompare _ _ _

theorem chunkValue_eq_iff (lhs rhs : BitMemoryRegion) (bit : Nat) {n : Nat} (hn : n ≤ kNumBits) :
    ((loadBits kSizeTBits mem lhs bit n).setWidth 32).toNat =
        ((loadBits kSizeTBits mem rhs bit n).setWidth 32).toNat ↔
      ∀ j < n, mem.bit (lhs.bitStart + (bit + j)) = mem.bit (rhs.bitStart + (bit + j)) := by
  have hn32 : n ≤ 32 := hn
  rw [BitVec.toNat_inj]
  constructor
  · intro h j hj
    have hbit := congrArg (fun x : BitVec 32 => x.getLsbD j) h
    simpa [getLsbD_loadBits_chunk mem _ _ hn, hj, show j < 32 by omega, Nat.add_assoc] using hbit
  · intro h
    apply BitVec.eq_of_getLsbD_eq
    intro j _
    rw [BitVec.getLsbD_setWidth, BitVec.getLsbD_setWidth, getLsbD_loadBits_chunk mem _ _ hn,
      getLsbD_loadBits_chunk mem _ _ hn]
    by_cases hj : j < n
    · simp [hj, Nat.add_assoc, h j hj]
    · simp [hj]

theorem chunkValues_eq_iff (lhs rhs : BitMemoryRegion) (bitLength : Nat) :
    chunkValues mem lhs bitLength = chunkValues mem rhs bitLength ↔
      ∀ i < bitLength, mem.bit (lhs.bitStart + i) = mem.bit (rhs.bitStart + i) := by
  unfold chunkValues
  rw [List.map_inj_left, ← forall_chunks_iff]
  refine forall_congr' fun c => forall_congr' fun hc => ?_
  exact chunkValue_eq_iff mem lhs rhs c.1 (mem_chunks (Nat.zero_le _) hc).2.2

theorem compare_of_ne {lhs rhs : BitMemoryRegion} (h : lhs.bitSize ≠ rhs.bitSize) :
    compare mem lhs rhs = if lhs.bitSize < rhs.bitSize then -1 else 1 := by
  unfold compare
  rw [if_pos (by simpa using h)]

theorem compare_swap (lhs rhs : BitMemoryRegion) : compare mem rhs lhs = -compare mem lhs rhs := by
  by_cases h : lhs.bitSize = rhs.bitSize
  · rw [compare_eq_lexCompare mem h, compare_eq_lexCompare mem h.symm, ← h, lexCompare_swap]
  · rw [compare_of_ne mem h, compare_of_ne mem (Ne.symm h)]
    rcases Nat.lt_or_gt_of_ne h with hlt | hlt
    · simp [hlt, Nat.not_lt.mpr (Nat.le_of_lt hlt)]
    · simp [hlt, Nat.not_lt.mpr (Nat.le_of_lt hlt)]

theorem compare_eq_zero_iff (lhs rhs : BitMemoryRegion) :
    compare mem lhs rhs = 0 ↔ lhs.bitSize = rhs.bitSize ∧
      ∀ i < lhs.bitSize, mem.bit (lhs.bitStart + i) = mem.bit (rhs.bitStart + i) := by
  by_cases h : lhs.bitSize = rhs.bitSize
  · rw [compare_eq_lexCompare mem h, lexCompare_eq_zero_iff (length_chunkValues mem _ _ _),
      chunkValues_eq_iff]
    simp [h]
  · rw [compare_of_ne mem h]
    simp only [h, false_and, iff_false]
    split <;> decide

theorem compare_nonpos_iff (lhs rhs : BitMemoryRegion) :
    compare mem lhs rhs ≤ 0 ↔ lhs.bitSize < rhs.bitSize ∨ (lhs.bitSize = rhs.bitSize ∧
      lexCompare (chunkValues mem lhs lhs.bitSize) (chunkValues mem rhs lhs.bitSize) ≤ 0) := by
  by_cases h : lhs.bitSize = rhs.bitSize
  · rw [compare_eq_lexCompare mem h]
    simp [h]
  · rw [compare_of_ne mem h]
    by_cases hlt : lhs.bitSize < rhs.bitSize
    · simp [hlt]
    · simp [hlt, h]

theorem compare_trans {a b c : BitMemoryRegion} (hab : compare mem a b ≤ 0)
    (hbc : compare mem b c ≤ 0) : compare mem a c ≤ 0 := by
  rw [compare_nonpos_iff] at hab hbc ⊢
  rcases hab with hab | ⟨hab, hab'⟩
  · left
    rcases hbc with hbc | ⟨hbc, -⟩ <;> omega
  · rcases hbc with hbc | ⟨hbc, hbc'⟩
    · left
      omega
    · right
      rw [← hab] at hbc'
      exact ⟨hab.trans hbc, lexCompare_trans (length_chunkValues mem _ _ _)
        (length_chunkValues mem _ _ _) hab' hbc'⟩

end Compare

section Reader

/-- The bits of a region, as the list model of `BitMemoryReader` holds them. -/
def bits (mem : ByteMemory) (r : BitMemoryRegion) : List Bool :=
  (List.range r.bitSize).map fun i => mem.bit (r.bitStart + i)

theorem getD_bits (mem : ByteMemory) (r : BitMemoryRegion) {i : Nat} (hi : i < r.bitSize) :
    (bits mem r).getD i false = mem.bit (r.bitStart + i) := by
  simp [bits, hi]

/-- A reader over a region's bits reads what `LoadBits` loads at its position: the list model of
the reader is refined by the loads from memory. -/
theorem readBits_eq_loadBits {k : Nat} (hk : 3 ≤ k) (mem : ByteMemory) (r : BitMemoryRegion)
    {reader : BitMemoryReader} (hdata : reader.data = bits mem r) {bitLength : Nat}
    (hlen : bitLength ≤ 2 ^ k)
    (hin : reader.start + reader.numberOfReadBits + bitLength ≤ r.bitSize) :
    (reader.readBits bitLength).1 =
      (loadBits (2 ^ k) mem r (reader.start + reader.numberOfReadBits) bitLength).toNat := by
  apply Nat.eq_of_testBit_eq
  intro i
  simp only [BitMemoryReader.readBits, BitMemoryReader.readRegion]
  rw [BitList.testBit_toNat, BitList.getD_slice, BitVec.testBit_toNat, getLsbD_loadBits hk mem r hlen,
    hdata]
  by_cases hi : i < bitLength
  · rw [getD_bits mem r (by omega), ← Nat.add_assoc r.bitStart]
  · simp [hi]

end Reader

/-- The two reads of a region's bits: `HasSomeBitSet` is whether any bit of the range is set, and
the reader's `ReadBits` is what `LoadBits` loads at the reader's position. -/
theorem bit_memory_region_reads (mem : ByteMemory) (r : BitMemoryRegion) :
    (∀ bitOffset bitLength : Nat, hasSomeBitSet mem r bitOffset bitLength =
      (List.range bitLength).any fun i => mem.bit (r.bitStart + bitOffset + i)) ∧
    ∀ (k : Nat) (reader : BitMemoryReader) (bitLength : Nat), 3 ≤ k → reader.data = bits mem r →
      bitLength ≤ 2 ^ k → reader.start + reader.numberOfReadBits + bitLength ≤ r.bitSize →
      (reader.readBits bitLength).1 =
        (loadBits (2 ^ k) mem r (reader.start + reader.numberOfReadBits) bitLength).toNat :=
  ⟨hasSomeBitSet_eq_any mem r, fun _ _ _ hk hdata hlen hin =>
    readBits_eq_loadBits hk mem r hdata hlen hin⟩

theorem bit_memory_region_store_load (mem : ByteMemory) :
    (∀ (r : BitMemoryRegion) (bitOffset bitLength : Nat) (value : BitVec 32),
      bitLength ≤ 32 → value.toNat < 2 ^ bitLength →
        (∀ k, 5 ≤ k → loadBits (2 ^ k) (storeBits mem r bitOffset value bitLength) r bitOffset
          bitLength = value.setWidth (2 ^ k)) ∧
        ∀ p, p < r.bitStart + bitOffset ∨ r.bitStart + bitOffset + bitLength ≤ p →
          (storeBits mem r bitOffset value bitLength).bit p = mem.bit p) ∧
    (∀ (r src : BitMemoryRegion) (bitOffset bitLength : Nat),
      src.bitStart + bitLength ≤ r.bitStart + bitOffset ∨
        r.bitStart + bitOffset + bitLength ≤ src.bitStart →
      (∀ i < bitLength,
        (storeBitsRegion mem r bitOffset src bitLength).bit (r.bitStart + bitOffset + i) =
          mem.bit (src.bitStart + i) ∧
        (orBits mem r bitOffset src bitLength).bit (r.bitStart + bitOffset + i) =
          (mem.bit (r.bitStart + bitOffset + i) || mem.bit (src.bitStart + i))) ∧
      ∀ p, p < r.bitStart + bitOffset ∨ r.bitStart + bitOffset + bitLength ≤ p →
        (storeBitsRegion mem r bitOffset src bitLength).bit p = mem.bit p ∧
        (orBits mem r bitOffset src bitLength).bit p = mem.bit p) ∧
    (∀ (r : BitMemoryRegion) (bitOffset bitLength : Nat), popCount mem r bitOffset bitLength =
      (List.range bitLength).countP fun i => mem.bit (r.bitStart + bitOffset + i)) ∧
    (∀ lhs rhs : BitMemoryRegion, compare mem rhs lhs = -compare mem lhs rhs) ∧
    (∀ a b c : BitMemoryRegion, compare mem a b ≤ 0 → compare mem b c ≤ 0 → compare mem a c ≤ 0) ∧
    (∀ lhs rhs : BitMemoryRegion, compare mem lhs rhs = 0 ↔ lhs.bitSize = rhs.bitSize ∧
      ∀ i < lhs.bitSize, mem.bit (lhs.bitStart + i) = mem.bit (rhs.bitStart + i)) := by
  refine ⟨fun r bitOffset bitLength value hlen hvalue => ⟨fun k hk => ?_, fun p hp => ?_⟩,
    fun r src bitOffset bitLength hdisj => ⟨fun i hi => ⟨?_, ?_⟩, fun p hp => ⟨?_, ?_⟩⟩,
    popCount_eq_countP mem, compare_swap mem, fun _ _ _ => compare_trans mem,
    compare_eq_zero_iff mem⟩
  · exact loadBits_storeBits (show 3 ≤ k by omega) mem r bitOffset hlen
      (hlen.trans (Nat.pow_le_pow_right (show 2 > 0 by decide) hk)) hvalue
  · rw [bit_storeBits mem r bitOffset hlen hvalue, if_neg (by omega)]
  · rw [rangeWritten_storeBitsRegion mem r bitOffset src bitLength hdisj, if_pos (by omega)]
    dsimp only
    rw [Nat.add_sub_cancel_left]
  · rw [rangeWritten_orBits mem r bitOffset src bitLength hdisj, if_pos (by omega)]
    dsimp only
    rw [Nat.add_sub_cancel_left]
  · exact (rangeWritten_storeBitsRegion mem r bitOffset src bitLength hdisj).bit_eq mem hp
  · exact (rangeWritten_orBits mem r bitOffset src bitLength hdisj).bit_eq mem hp

/-- A region of 40 bits from bit 3 of zeroed memory: `0x5A` stored in eight bits at offset 9 is
loaded back as a `size_t`. -/
theorem bit_memory_region_store_load_sample :
    (8 ≤ 32 ∧ (0x5A#32).toNat < 2 ^ 8) ∧
      loadBits (2 ^ 6) (storeBits (fun _ => 0#8) ⟨3, 40⟩ 9 0x5A#32 8) ⟨3, 40⟩ 9 8 =
        (0x5A#32).setWidth (2 ^ 6) := by
  have hlen : 8 ≤ 32 := by decide
  have hvalue : (0x5A#32).toNat < 2 ^ 8 := by decide
  exact ⟨⟨hlen, hvalue⟩,
    ((bit_memory_region_store_load (fun _ => 0#8)).1 ⟨3, 40⟩ 9 8 0x5A#32 hlen hvalue).1 6
      (by decide)⟩

/-- A store from a source that overlaps the destination one bit ahead: the first chunk writes
source bit 31 over source bit 32 before the second chunk loads it, so bit 32 of the destination
gets bit 31 of the source, `1`, where the source's bit 32 was `0`. -/
theorem storeBitsRegion_overlap_miscopies :
    let mem : ByteMemory := fun a => if a = 3 then 0x80#8 else 0#8
    mem.bit (0 + 32) = false ∧
      (storeBitsRegion mem ⟨1, 33⟩ 0 ⟨0, 33⟩ 33).bit (1 + 32) = true := by
  intro mem
  refine ⟨by decide, ?_⟩
  unfold storeBitsRegion
  rw [forEachChunk, if_pos (by decide), forEachChunk, if_neg (by decide)]
  simp only [kNumBits, Nat.zero_add, Nat.add_zero, Nat.reduceSub]
  set mem1 := storeBits mem ⟨1, 33⟩ 0 ((loadBits kSizeTBits mem ⟨0, 33⟩ 0 32).setWidth 32) 32
    with hmem1
  -- the first chunk writes source bit 31 at bit 32
  have hbit32 : mem1.bit 32 = true := by
    have hlt : ((loadBits kSizeTBits mem ⟨0, 33⟩ 0 32).setWidth 32).toNat < 2 ^ 32 := BitVec.isLt _
    rw [hmem1, bit_storeBits mem ⟨1, 33⟩ 0 (by decide) hlt, if_pos (by decide),
      BitVec.getLsbD_setWidth, getLsbD_loadBits_chunk mem _ _ (by decide)]
    decide
  have hlt : ((loadBits kSizeTBits mem1 ⟨0, 33⟩ 32 1).setWidth 32).toNat < 2 ^ 1 :=
    BitVec.toNat_lt_of_getLsbD fun j hj => by
      rw [BitVec.getLsbD_setWidth, getLsbD_loadBits_chunk mem1 _ _ (by decide)]
      simp [show ¬ j < 1 by omega]
  rw [bit_storeBits mem1 ⟨1, 33⟩ 32 (by decide) hlt, if_pos (by decide), BitVec.getLsbD_setWidth,
    getLsbD_loadBits_chunk mem1 _ _ (by decide)]
  simpa using hbit32

end BitMemoryRegion

end Art
