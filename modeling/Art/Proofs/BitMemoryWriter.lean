import Art.Base.BitMemoryWriter
import Art.Proofs.BitMemoryRegion
import Art.Proofs.BitMemory

/-!
# The vector writer appends, and where `ByteAlign` aligns

Each write call allocates behind the position, sizing the vector to the new position, and stores
into what it allocated: so it keeps the start, moves the position forward, keeps the vector large
enough for the position, and leaves every bit below the old position as it was (`Appends`).
`ByteAlign` moves the position to where `bit_start_ + bit_offset_` is a multiple of a byte
(`byteAlign_bitOffset`).  That position is a multiple of a byte itself only when the start is
(`byteAlign_bitOffset_mod_iff`): from a start that is, every run of calls appends, and the
position after `ByteAlign` is aligned, at most seven bits on and covered by the vector
(`run_byteAlign_of_aligned_start`).
-/

namespace Art

open ByteMemory BitMemoryRegion

namespace VectorBitMemoryWriter

section Vector

theorem length_resizeVector (out : List (BitVec 8)) (n : Nat) :
    (resizeVector out n).length = n := by
  simp only [resizeVector, List.length_append, List.length_take, List.length_replicate]
  omega

/-- Resizing keeps the bytes below the new size. -/
theorem ofList_resizeVector (out : List (BitVec 8)) {n a : Nat} (ha : a < n) :
    ofList (resizeVector out n) a = ofList out a := by
  unfold ofList resizeVector
  by_cases h : a < out.length
  · rw [List.getD_append _ _ _ _ (by simp; omega)]
    simp [List.getD_eq_getElem?_getD, ha]
  · -- past the old end both read the zero byte
    rw [List.getD_append_right _ _ _ _ (by simp; omega)]
    simp only [List.getD_eq_getElem?_getD, List.getElem?_replicate,
      List.getElem?_eq_none (by omega : out.length ≤ a)]
    split <;> rfl

theorem ofList_map_range (g : Nat → BitVec 8) {n a : Nat} (ha : a < n) :
    ofList ((List.range n).map g) a = g a := by
  simp [ofList, List.getD_eq_getElem?_getD, ha]

theorem bit_ofList_map_range (g : ByteMemory) {n p : Nat} (hp : p / 8 < n) :
    (ofList ((List.range n).map g)).bit p = g.bit p := by
  unfold ByteMemory.bit
  rw [ofList_map_range g hp]

end Vector

section Fields

variable (w : VectorBitMemoryWriter)

@[simp] theorem bitStart_allocate (n : Nat) : (w.allocate n).2.bitStart = w.bitStart := rfl

@[simp] theorem bitOffset_allocate (n : Nat) : (w.allocate n).2.bitOffset = w.bitOffset + n := rfl

@[simp] theorem out_allocate (n : Nat) :
    (w.allocate n).2.out = resizeVector w.out (bitsToBytesRoundUp (w.bitOffset + n)) := rfl

@[simp] theorem bitStart_storeData (store : ByteMemory → ByteMemory) :
    (w.storeData store).bitStart = w.bitStart := rfl

@[simp] theorem bitOffset_storeData (store : ByteMemory → ByteMemory) :
    (w.storeData store).bitOffset = w.bitOffset := rfl

@[simp] theorem length_out_storeData (store : ByteMemory → ByteMemory) :
    (w.storeData store).out.length = w.out.length := by
  simp [storeData]

end Fields

section Appends

/-- A store that leaves every bit below `start` as it was. -/
def KeepsBelow (store : ByteMemory → ByteMemory) (start : Nat) : Prop :=
  ∀ mem p, p < start → (store mem).bit p = mem.bit p

/-- What a write call does: the start stays, the position moves on, a vector that covered the
old position covers the new one, and the bits below the old position stay. -/
structure Appends (w w' : VectorBitMemoryWriter) : Prop where
  bitStart_eq : w'.bitStart = w.bitStart
  bitOffset_le : w.bitOffset ≤ w'.bitOffset
  covers : bitsToBytesRoundUp w.bitOffset ≤ w.out.length →
    bitsToBytesRoundUp w'.bitOffset ≤ w'.out.length
  bit_eq : ∀ p < w.bitOffset, (ofList w'.out).bit p = (ofList w.out).bit p

theorem Appends.refl (w : VectorBitMemoryWriter) : Appends w w :=
  ⟨rfl, Nat.le_refl _, id, fun _ _ => rfl⟩

theorem Appends.trans {w₁ w₂ w₃ : VectorBitMemoryWriter} (h₁ : Appends w₁ w₂)
    (h₂ : Appends w₂ w₃) : Appends w₁ w₃ where
  bitStart_eq := h₂.bitStart_eq.trans h₁.bitStart_eq
  bitOffset_le := h₁.bitOffset_le.trans h₂.bitOffset_le
  covers := h₂.covers ∘ h₁.covers
  bit_eq p hp := (h₂.bit_eq p (Nat.lt_of_lt_of_le hp h₁.bitOffset_le)).trans (h₁.bit_eq p hp)

theorem appends_foldl {α : Type} (f : VectorBitMemoryWriter → α → VectorBitMemoryWriter)
    (xs : List α) (h : ∀ w, ∀ x ∈ xs, Appends w (f w x)) (w : VectorBitMemoryWriter) :
    Appends w (xs.foldl f w) := by
  induction xs generalizing w with
  | nil => exact Appends.refl w
  | cons x xs ih =>
    exact (h w x List.mem_cons_self).trans
      (ih (fun w y hy => h w y (List.mem_cons_of_mem _ hy)) _)

/-- The step every write call is made of: an allocation, then a store into what it allocated. -/
theorem appends_storeData_allocate (w : VectorBitMemoryWriter) (n : Nat)
    {store : ByteMemory → ByteMemory} (hstore : KeepsBelow store w.bitOffset) :
    Appends w ((w.allocate n).2.storeData store) := by
  refine ⟨rfl, Nat.le_add_right _ _, fun _ => by simp [length_resizeVector], fun p hp => ?_⟩
  have hbyte : p / 8 < bitsToBytesRoundUp (w.bitOffset + n) := by
    unfold bitsToBytesRoundUp kBitsPerByte
    omega
  have hresize : p / 8 < (resizeVector w.out (bitsToBytesRoundUp (w.bitOffset + n))).length := by
    rwa [length_resizeVector]
  simp only [storeData, out_allocate]
  rw [bit_ofList_map_range _ hresize, hstore _ p hp]
  unfold ByteMemory.bit
  rw [ofList_resizeVector _ hbyte]

theorem keepsBelow_storeBits (start : Nat) {value : BitVec 32} {bitLength : Nat}
    (hlen : bitLength ≤ 32) (hvalue : value.toNat < 2 ^ bitLength) :
    KeepsBelow (fun mem => storeBits mem ⟨start, bitLength⟩ 0 value bitLength) start := by
  intro mem p hp
  rw [bit_storeBits mem _ 0 hlen hvalue p, if_neg (by simp only [Nat.add_zero]; omega)]

theorem keepsBelow_storeBit (start : Nat) (value : Bool) :
    KeepsBelow (fun mem => storeBit mem ⟨start, 1⟩ 0 value) start := by
  intro mem p hp
  rw [bit_storeBit mem _ 0 value p, if_neg (by simp only [Nat.add_zero]; omega)]

theorem keepsBelow_storeBitsFrom (start : Nat) (srcMem : ByteMemory) (src : BitMemoryRegion) :
    KeepsBelow (fun mem => storeBitsFrom mem ⟨start, src.bitSize⟩ 0 srcMem src src.bitSize)
      start := by
  intro mem p hp
  exact (rangeWritten_storeBitsFrom mem _ 0 srcMem src src.bitSize).bit_eq mem (Or.inl hp)

theorem appends_writeBits (w : VectorBitMemoryWriter) {value : BitVec 32} {bitLength : Nat}
    (hlen : bitLength ≤ 32) (hvalue : value.toNat < 2 ^ bitLength) :
    Appends w (w.writeBits value bitLength) :=
  appends_storeData_allocate w bitLength (keepsBelow_storeBits w.bitOffset hlen hvalue)

/-- The varints' fields all fit what `WriteInterleavedVarints` writes them in. -/
theorem appends_writeInterleavedVarints (w : VectorBitMemoryWriter) (values : List (BitVec 32)) :
    Appends w (w.writeInterleavedVarints values) := by
  unfold writeInterleavedVarints
  refine (appends_foldl _ values (fun w value _ => ?_) w).trans
    (appends_foldl _ values (fun w value _ => ?_) _)
  · -- the first field: the value or the byte count, in four bits
    have hheader := varintHeader_lt value.isLt
    refine appends_writeBits w (by unfold kVarintBits; omega) ?_
    rw [BitVec.toNat_ofNat, Nat.mod_eq_of_lt (by unfold kVarintBits at hheader; omega)]
    exact hheader
  · -- a large value, in the bytes its first field counts
    split
    · rename_i hlarge
      obtain ⟨-, hbytes, hfits⟩ := varintBytes_spec value.isLt hlarge
      exact appends_writeBits w (by unfold varintBytes kBitsPerByte at *; omega) hfits
    · exact Appends.refl w

end Appends

section ByteAlign

variable (w : VectorBitMemoryWriter)

@[simp] theorem bitStart_byteAlign : w.byteAlign.bitStart = w.bitStart := rfl

@[simp] theorem out_byteAlign : w.byteAlign.out = w.out := rfl

/-- `ByteAlign` pads to the byte boundary of `bit_start_ + bit_offset_`. -/
theorem byteAlign_bitOffset :
    w.byteAlign.bitOffset = w.bitOffset + (8 - (w.bitStart + w.bitOffset) % 8) % 8 := by
  simp only [byteAlign, roundUp, kBitsPerByte]
  omega

theorem byteAlign_bitOffset_lt : w.byteAlign.bitOffset < w.bitOffset + 8 := by
  rw [byteAlign_bitOffset]
  omega

/-- The position after `ByteAlign` is a multiple of a byte exactly when the start is. -/
theorem byteAlign_bitOffset_mod_iff : w.byteAlign.bitOffset % 8 = 0 ↔ w.bitStart % 8 = 0 := by
  rw [byteAlign_bitOffset]
  omega

/-- From a start that is a multiple of a byte, the padding stays within the last byte. -/
theorem appends_byteAlign (hs : w.bitStart % 8 = 0) : Appends w w.byteAlign := by
  have hpad : bitsToBytesRoundUp w.byteAlign.bitOffset = bitsToBytesRoundUp w.bitOffset := by
    rw [byteAlign_bitOffset]
    unfold bitsToBytesRoundUp kBitsPerByte
    omega
  exact ⟨rfl, by rw [byteAlign_bitOffset]; omega, fun h => by rwa [hpad], fun _ _ => rfl⟩

end ByteAlign

section Run

theorem appends_apply (w : VectorBitMemoryWriter) (c : Call) (hpre : c.Pre)
    (hs : w.bitStart % 8 = 0) : Appends w (c.apply w) := by
  cases c with
  | writeBits value bitLength => exact appends_writeBits w hpre.1 hpre.2
  | writeBit value => exact appends_storeData_allocate w 1 (keepsBelow_storeBit _ value)
  | writeRegion srcMem region =>
    exact appends_storeData_allocate w _ (keepsBelow_storeBitsFrom _ srcMem region)
  | writeInterleavedVarints values => exact appends_writeInterleavedVarints w values
  | byteAlign => exact appends_byteAlign w hs

/-- From a start that is a multiple of a byte, a run of calls that meet their `DCHECK`s appends. -/
theorem appends_run (calls : List Call) (w : VectorBitMemoryWriter) (hs : w.bitStart % 8 = 0)
    (hpre : ∀ c ∈ calls, c.Pre) : Appends w (w.run calls) := by
  induction calls generalizing w with
  | nil => exact Appends.refl w
  | cons c calls ih =>
    -- the start, and so its alignment, is the same after the first call
    have hc := appends_apply w c (hpre c List.mem_cons_self) hs
    exact hc.trans (ih (c.apply w) (hc.bitStart_eq ▸ hs)
      fun c' hc' => hpre c' (List.mem_cons_of_mem _ hc'))

/-- From a start that is a multiple of a byte and a vector that covers it, `ByteAlign` after any
run of calls leaves the position at a multiple of a byte, fewer than eight bits on, covered by
the vector, and the written region's old bits as they were. -/
theorem run_byteAlign_of_aligned_start {out : List (BitVec 8)} {s : Nat} (hs : s % 8 = 0)
    (hout : bitsToBytesRoundUp s ≤ out.length) (calls : List Call)
    (hpre : ∀ c ∈ calls, c.Pre) :
    let w := (create out s).run calls
    w.byteAlign.bitOffset % 8 = 0 ∧ w.byteAlign.bitOffset < w.bitOffset + 8 ∧
      bitsToBytesRoundUp w.byteAlign.bitOffset ≤ w.byteAlign.out.length ∧
      w.byteAlign.getWrittenRegion.bitStart = w.getWrittenRegion.bitStart ∧
      w.getWrittenRegion.bitSize ≤ w.byteAlign.getWrittenRegion.bitSize ∧
      ∀ p < w.bitOffset, (ofList w.byteAlign.out).bit p = (ofList w.out).bit p := by
  intro w
  have hrun : Appends (create out s) w := appends_run calls (create out s) hs hpre
  have hstart : w.bitStart = s := hrun.bitStart_eq
  have halign : Appends w w.byteAlign := appends_byteAlign w (by rw [hstart]; exact hs)
  refine ⟨(byteAlign_bitOffset_mod_iff w).2 (by rw [hstart]; exact hs), byteAlign_bitOffset_lt w,
    halign.covers (hrun.covers hout), rfl, ?_, halign.bit_eq⟩
  simp only [getWrittenRegion, bitStart_byteAlign]
  have := halign.bitOffset_le
  omega

/-- From bit 0 of an empty vector, `WriteBits(5, 3)` and `ByteAlign`. -/
theorem run_byteAlign_of_aligned_start_writeBits :
    let w := (create [] 0).run [.writeBits 5 3]
    w.byteAlign.bitOffset % 8 = 0 ∧ w.byteAlign.bitOffset < w.bitOffset + 8 ∧
      bitsToBytesRoundUp w.byteAlign.bitOffset ≤ w.byteAlign.out.length ∧
      w.byteAlign.getWrittenRegion.bitStart = w.getWrittenRegion.bitStart ∧
      w.getWrittenRegion.bitSize ≤ w.byteAlign.getWrittenRegion.bitSize ∧
      ∀ p < w.bitOffset, (ofList w.byteAlign.out).bit p = (ofList w.out).bit p :=
  run_byteAlign_of_aligned_start (by decide) (by decide) [.writeBits 5 3] (by decide)

/-- From bit 4 of an empty vector, four bits and `ByteAlign` leave the position at bit 12, in the
middle of a byte, with one byte in the vector where the position needs two. -/
theorem byteAlign_unaligned_start :
    (let w := ((create [] 4).writeBits 0 4).byteAlign
    w.bitOffset = 12 ∧ w.bitOffset % 8 ≠ 0 ∧
      w.out.length < bitsToBytesRoundUp w.bitOffset) := by
  decide

end Run

end VectorBitMemoryWriter

end Art
