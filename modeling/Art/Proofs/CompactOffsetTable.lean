import Art.Dex.CompactOffsetTable
import Art.Proofs.Leb128

/-!
# Compact offset tables read back

`Build` lays the blocks out one after the other and records where each starts
(`buildBlocks_eq`): block `b` is its mask, big endian, and the deltas of its nonzero offsets
(`blockBytes`).  `GetOffset` finds the index's block through the table and tests the index's bit
of the mask; the population count at or below the bit says which nonzero offset of the block the
index holds (`getElem?_filter_countP_take`), and the deltas up to it telescope to that offset
(`sumDeltas_deltaBytes`), whatever the minimum and however the `uint32_t` differences wrap.

The block starts and the table offset are `out_data->size()` narrowed to `uint32_t`.  Below
`2^29` offsets the data is shorter than `2^32` bytes and every offset reads back
(`compact_offset_table_round_trip`).  Past `2^32` bytes the narrowed table offset points into
the blocks, and a vector of `16 * 238609295` ones reads back a zero at index 0
(`build_wide_offsets_misread`).
-/

namespace Art.CompactOffsetTable

open ByteMemory Leb128

/-! ## The deltas of a block -/

/-- The offsets of the block of `blockSize` from `blockStart`. -/
def blockOffsets (offsets : List (BitVec 32)) (blockStart blockSize : Nat) : List (BitVec 32) :=
  (List.range blockSize).map fun i => offsets.getD (blockStart + i) 0

/-- The ULEB128 deltas of a run of offsets, each from the one before, the first from `prev`. -/
def deltaBytes : BitVec 32 → List (BitVec 32) → List (BitVec 8)
  | _, [] => []
  | prev, offset :: rest => encode (offset - prev).toNat ++ deltaBytes offset rest

theorem foldl_deltas (offsets : List (BitVec 32)) (blockStart : Nat) :
    ∀ (l : List Nat) (data : List (BitVec 8)) (prev : BitVec 32),
      (l.foldl (fun (acc : List (BitVec 8) × BitVec 32) i =>
        let offset := offsets.getD (blockStart + i) 0
        if offset ≠ 0 then (encodeUnsignedLeb128Vector acc.1 (offset - acc.2), offset) else acc)
        (data, prev)).1 =
      data ++ deltaBytes prev ((l.map fun i => offsets.getD (blockStart + i) 0).filter (· != 0))
  | [], data, prev => by simp [deltaBytes]
  | i :: l, data, prev => by
    rw [List.foldl_cons, List.map_cons]
    by_cases h : offsets.getD (blockStart + i) 0 = 0
    · rw [if_neg (not_not.mpr h), foldl_deltas offsets blockStart l, List.filter_cons_of_neg (by rw [h]; decide)]
    · rw [if_pos h, foldl_deltas offsets blockStart l, List.filter_cons_of_pos (by simpa using h),
        deltaBytes, encodeUnsignedLeb128Vector_eq, List.append_assoc]

theorem writeBlockDeltas_eq (offsets : List (BitVec 32)) (blockStart blockSize : Nat)
    (minOffset : BitVec 32) (data : List (BitVec 8)) :
    writeBlockDeltas offsets blockStart blockSize minOffset data =
      data ++ deltaBytes minOffset ((blockOffsets offsets blockStart blockSize).filter (· != 0)) :=
  foldl_deltas offsets blockStart _ data minOffset

theorem length_deltaBytes_le : ∀ (prev : BitVec 32) (nz : List (BitVec 32)),
    (deltaBytes prev nz).length ≤ 5 * nz.length
  | _, [] => Nat.le_refl 0
  | prev, offset :: rest => by
    have hrest := length_deltaBytes_le offset rest
    have hfirst := length_encode_le_five (offset - prev)
    rw [deltaBytes, List.length_append, List.length_cons]
    omega

/-- Summing the first `k + 1` deltas from `prev` gives the `k`-th offset: the differences
telescope in `uint32_t`. -/
theorem sumDeltas_deltaBytes {mem : ByteMemory} :
    ∀ (prev : BitVec 32) (nz : List (BitVec 32)) {addr : Nat}, mem.Holds addr (deltaBytes prev nz) →
      ∀ k (hk : k < nz.length), sumDeltas mem (k + 1) addr prev = nz[k]
  | _, [], _, _, _, hk => absurd hk (Nat.not_lt_zero _)
  | prev, offset :: rest, addr, h, k, hk => by
    rw [deltaBytes, holds_append_iff] at h
    have hdec := decodeUnsignedLeb128_of_holds h.1 (terminated_encode _) (length_encode_le_five _)
    rw [value_encode, BitVec.ofNat_toNat, BitVec.setWidth_eq] at hdec
    rw [sumDeltas, hdec]
    dsimp only
    rw [add_sub_cancel]
    cases k with
    | zero => rfl
    | succ k => exact sumDeltas_deltaBytes offset rest h.2 k (Nat.lt_of_succ_lt_succ hk)

theorem countP_take_pos {α : Type} (p : α → Bool) {l : List α} {k : Nat} (hk : k < l.length)
    (hp : p l[k] = true) : 0 < (l.take (k + 1)).countP p := by
  have hmem : l[k] ∈ l.take (k + 1) := List.mem_iff_getElem.mpr ⟨k, by simp; omega, by simp⟩
  exact List.countP_pos_iff.mpr ⟨_, hmem, hp⟩

/-- A nonzero `l[k]` is entry `c - 1` of the nonzero entries, where `c` counts those up to and
including it. -/
theorem getElem?_filter_countP_take {α : Type} (p : α → Bool) :
    ∀ (l : List α) {k : Nat} (hk : k < l.length), p l[k] = true →
      (l.filter p)[(l.take (k + 1)).countP p - 1]? = some l[k]
  | [], _, hk, _ => absurd hk (Nat.not_lt_zero _)
  | x :: l, 0, _, hp => by
    rw [List.getElem_cons_zero] at hp
    simp [hp]
  | x :: l, k + 1, hk, hp => by
    rw [List.getElem_cons_succ] at hp ⊢
    have hkl : k < l.length := Nat.lt_of_succ_lt_succ hk
    have hrest := getElem?_filter_countP_take p l hkl hp
    have hpos := countP_take_pos p hkl hp
    rw [List.take_succ_cons, List.countP_cons]
    by_cases hx : p x = true
    · rw [List.filter_cons_of_pos hx, if_pos hx, show (l.take (k + 1)).countP p + 1 - 1 =
        (l.take (k + 1)).countP p - 1 + 1 by omega, List.getElem?_cons_succ, hrest]
    · rw [List.filter_cons_of_neg hx, if_neg hx, Nat.add_zero, hrest]

/-! ## The mask -/

theorem getLsbD_ofNat_one_shiftLeft {b : Nat} (hb : b < 16) (i : Nat) :
    (BitVec.ofNat 16 (1 <<< b)).getLsbD i = decide (i = b) := by
  rw [BitVec.getLsbD_ofNat, Nat.one_shiftLeft, Nat.testBit_two_pow]
  by_cases hi : i = b
  · subst hi
    simp [hb]
  · simp [hi, Ne.symm hi]

/-- Bit `k` of a mask that sets bit `i` for every `i` of `l` that passes `P`. -/
theorem getLsbD_foldl_mask (P : Nat → Prop) [DecidablePred P] :
    ∀ (l : List Nat) (acc : BitVec 16), (∀ i ∈ l, i < 16) → ∀ k,
      (l.foldl (fun m i => if P i then m ||| ((1 <<< i : Nat) : BitVec 16) else m) acc).getLsbD k =
        (acc.getLsbD k || decide (k ∈ l ∧ P k))
  | [], acc, _, k => by simp
  | i :: l, acc, hl, k => by
    rw [List.foldl_cons, getLsbD_foldl_mask P l _ (fun j hj => hl j (List.mem_cons_of_mem i hj))]
    have hi : i < 16 := hl i List.mem_cons_self
    by_cases hki : k = i
    · subst hki
      by_cases hP : P k <;> simp [hP, BitVec.natCast_eq_ofNat, getLsbD_ofNat_one_shiftLeft hi]
    · by_cases hP : P i <;> simp [hP, hki, BitVec.natCast_eq_ofNat, getLsbD_ofNat_one_shiftLeft hi]

theorem getLsbD_blockBitMask (offsets : List (BitVec 32)) (blockStart : Nat) {blockSize : Nat}
    (hsize : blockSize ≤ 16) (k : Nat) :
    (blockBitMask offsets blockStart blockSize).getLsbD k =
      decide (k < blockSize ∧ offsets.getD (blockStart + k) 0 ≠ 0) := by
  unfold blockBitMask
  rw [getLsbD_foldl_mask _ _ _ (fun i hi => by rw [List.mem_range] at hi; omega)]
  simp

/-- The two bytes `Build` writes, high first, are read back into the mask. -/
theorem mask_of_bytes (m : BitVec 16) :
    (((m >>> 8).setWidth 8).setWidth 16 <<< 8) ||| (m.setWidth 8).setWidth 16 = m := by
  ext i hi
  simp only [BitVec.getElem_or, BitVec.getElem_shiftLeft, BitVec.getElem_setWidth,
    BitVec.getLsbD_setWidth, BitVec.getLsbD_ushiftRight]
  by_cases h : i < 8
  · simp [h, BitVec.getLsbD_eq_getElem hi]
  · simp [h, show 8 + (i - 8) = i by omega, show i - 8 < 8 by omega, BitVec.getLsbD_eq_getElem hi]

theorem and_one_shiftLeft_eq_zero_iff (m : BitVec 16) {b : Nat} (hb : b < 16) :
    m &&& ((1 <<< b : Nat) : BitVec 16) = 0 ↔ m.getLsbD b = false := by
  constructor
  · intro h
    have hbit := congrArg (fun x => x.getLsbD b) h
    simpa [BitVec.natCast_eq_ofNat, getLsbD_ofNat_one_shiftLeft hb] using hbit
  · intro h
    apply BitVec.eq_of_getLsbD_eq
    intro i hi
    rw [BitVec.getLsbD_and, BitVec.natCast_eq_ofNat, getLsbD_ofNat_one_shiftLeft hb]
    by_cases hib : i = b
    · subst hib
      simp [h]
    · simp [hib]

/-- The population count of the mask shifted to the top of a 64-bit word counts the mask bits
at or below `b`. -/
theorem toNat_cpop_shiftLeft (m : BitVec 16) {b : Nat} (hb : b < 16) :
    ((m.setWidth 64) <<< (64 - 1 - b)).cpop.toNat = (List.range (b + 1)).countP m.getLsbD := by
  have hsplit : List.range 64 = List.range (64 - 1 - b) ++ (List.range (b + 1)).map (64 - 1 - b + ·) := by
    rw [← List.range_add, show 64 - 1 - b + (b + 1) = 64 by omega]
  rw [Art.BitVec.toNat_cpop_eq_countP, hsplit, List.countP_append, List.countP_map]
  have hlow : (List.range (64 - 1 - b)).countP ((m.setWidth 64) <<< (64 - 1 - b)).getLsbD = 0 :=
    List.countP_eq_zero.mpr fun j hj => by
      rw [List.mem_range] at hj
      simp [hj]
  rw [hlow, Nat.zero_add]
  exact List.countP_congr fun j hj => by
    rw [List.mem_range] at hj
    simp [show 63 - b + j < 64 by omega]

/-! ## The layout -/

section Layout

variable (offsets : List (BitVec 32)) (minOffset : BitVec 32)

theorem kElementsPerIndex_eq : kElementsPerIndex = 16 := rfl

/-- The number of blocks, `offsets.size()` divided by 16 and rounded up. -/
def numBlocks : Nat := (offsets.length + kElementsPerIndex - 1) / kElementsPerIndex

/-- The size of block `b`: sixteen, or what is left for the last block. -/
def blockSize (b : Nat) : Nat := min (offsets.length - kElementsPerIndex * b) kElementsPerIndex

/-- Block `b`: its mask, high byte first, then the deltas of its nonzero offsets. -/
def blockBytes (b : Nat) : List (BitVec 8) :=
  let bitMask := blockBitMask offsets (kElementsPerIndex * b) (blockSize offsets b)
  [(bitMask >>> 8).setWidth 8, bitMask.setWidth 8] ++
    deltaBytes minOffset
      ((blockOffsets offsets (kElementsPerIndex * b) (blockSize offsets b)).filter (· != 0))

/-- The data of the first `k` blocks. -/
def blocksData (k : Nat) : List (BitVec 8) := (List.range k).flatMap (blockBytes offsets minOffset)

/-- The table entries of the first `k` blocks: where each starts, narrowed to `uint32_t`. -/
def blockStarts (k : Nat) : List (BitVec 32) :=
  (List.range k).map fun b => BitVec.ofNat 32 (blocksData offsets minOffset b).length

theorem blocksData_succ (k : Nat) :
    blocksData offsets minOffset (k + 1) =
      blocksData offsets minOffset k ++ blockBytes offsets minOffset k := by
  simp [blocksData, List.range_succ, List.flatMap_append]

theorem blockStarts_succ (k : Nat) :
    blockStarts offsets minOffset (k + 1) =
      blockStarts offsets minOffset k ++ [BitVec.ofNat 32 (blocksData offsets minOffset k).length] := by
  simp [blockStarts, List.range_succ]

/-- From block `j` on, the loop appends the remaining blocks and their starts, given fuel for
them. -/
theorem buildBlocks_eq : ∀ (fuel j : Nat), j ≤ numBlocks offsets → numBlocks offsets ≤ j + fuel →
    buildBlocks offsets minOffset fuel (min (kElementsPerIndex * j) offsets.length)
        (blocksData offsets minOffset j) (blockStarts offsets minOffset j) =
      (blocksData offsets minOffset (numBlocks offsets),
        blockStarts offsets minOffset (numBlocks offsets))
  | 0, j, hj, hfuel => by
    rw [show j = numBlocks offsets by omega]
    rfl
  | fuel + 1, j, hj, hfuel => by
    rw [buildBlocks]
    by_cases hlt : j < numBlocks offsets
    · -- block `j` starts at `16 * j`, inside the offsets
      have hstart : min (kElementsPerIndex * j) offsets.length = kElementsPerIndex * j := by
        simp only [numBlocks, kElementsPerIndex_eq] at hlt ⊢
        omega
      have hnext : kElementsPerIndex * j + blockSize offsets j =
          min (kElementsPerIndex * (j + 1)) offsets.length := by
        simp only [blockSize, numBlocks, kElementsPerIndex_eq] at hlt ⊢
        omega
      have hdata : writeBlockDeltas offsets (kElementsPerIndex * j) (blockSize offsets j) minOffset
          (blocksData offsets minOffset j ++
            [(blockBitMask offsets (kElementsPerIndex * j) (blockSize offsets j) >>> 8).setWidth 8,
              (blockBitMask offsets (kElementsPerIndex * j) (blockSize offsets j)).setWidth 8]) =
          blocksData offsets minOffset (j + 1) := by
        rw [writeBlockDeltas_eq, blocksData_succ, List.append_assoc]
        rfl
      rw [hstart, if_pos (by simp only [numBlocks, kElementsPerIndex_eq] at hlt ⊢; omega)]
      dsimp only
      rw [show min (offsets.length - kElementsPerIndex * j) kElementsPerIndex = blockSize offsets j
        from rfl, hdata, hnext, ← blockStarts_succ]
      exact buildBlocks_eq fuel (j + 1) hlt (by omega)
    · -- past the last block the loop stops
      have hend : j = numBlocks offsets := by omega
      subst hend
      rw [if_neg (by simp only [numBlocks, kElementsPerIndex_eq]; omega)]

/-- The loop from the first block: the blocks and their starts. -/
theorem buildBlocks_zero :
    buildBlocks offsets minOffset offsets.length 0 [] [] =
      (blocksData offsets minOffset (numBlocks offsets),
        blockStarts offsets minOffset (numBlocks offsets)) := by
  have h := buildBlocks_eq offsets minOffset offsets.length 0 (Nat.zero_le _)
    (by simp only [numBlocks, kElementsPerIndex_eq]; omega)
  rw [Nat.mul_zero, Nat.zero_min] at h
  exact h

theorem blockSize_le (b : Nat) : blockSize offsets b ≤ 16 := Nat.min_le_right _ _

theorem length_blockBytes_le (b : Nat) : (blockBytes offsets minOffset b).length ≤ 82 := by
  have hdeltas := length_deltaBytes_le minOffset
    ((blockOffsets offsets (kElementsPerIndex * b) (blockSize offsets b)).filter (· != 0))
  have hfilter := List.length_filter_le (· != 0)
    (blockOffsets offsets (kElementsPerIndex * b) (blockSize offsets b))
  have hsize := blockSize_le offsets b
  have hlen : (blockOffsets offsets (kElementsPerIndex * b) (blockSize offsets b)).length =
      blockSize offsets b := by
    simp [blockOffsets]
  simp only [blockBytes, List.length_append, List.length_cons, List.length_nil]
  omega

theorem length_blocksData_le (k : Nat) : (blocksData offsets minOffset k).length ≤ 82 * k := by
  induction k with
  | zero => exact Nat.zero_le _
  | succ k ih =>
    rw [blocksData_succ, List.length_append]
    have := length_blockBytes_le offsets minOffset k
    omega

/-- Block `b` stands in the data right after the blocks before it. -/
theorem blocksData_eq_append {b k : Nat} (hb : b < k) :
    ∃ rest, blocksData offsets minOffset k =
      blocksData offsets minOffset b ++ blockBytes offsets minOffset b ++ rest := by
  induction k with
  | zero => exact absurd hb (Nat.not_lt_zero _)
  | succ k ih =>
    rcases Nat.lt_succ_iff_lt_or_eq.mp hb with hlt | rfl
    · obtain ⟨rest, hrest⟩ := ih hlt
      exact ⟨rest ++ blockBytes offsets minOffset k, by rw [blocksData_succ, hrest]; simp⟩
    · exact ⟨[], by rw [blocksData_succ, List.append_nil]⟩

theorem length_blockStarts (k : Nat) : (blockStarts offsets minOffset k).length = k := by
  simp [blockStarts]

theorem getElem_blockStarts {k b : Nat} (hb : b < (blockStarts offsets minOffset k).length) :
    (blockStarts offsets minOffset k)[b] = BitVec.ofNat 32 (blocksData offsets minOffset b).length := by
  simp [blockStarts]

end Layout

/-! ## Reading one offset -/

/-- The mask bits at or below `bitIndex` are the nonzero offsets of the block up to it. -/
theorem countP_blockBitMask (offsets : List (BitVec 32)) (blockStart : Nat) {blockSize bitIndex : Nat}
    (hsize : blockSize ≤ 16) (hbit : bitIndex < blockSize) :
    (List.range (bitIndex + 1)).countP (blockBitMask offsets blockStart blockSize).getLsbD =
      ((blockOffsets offsets blockStart blockSize).take (bitIndex + 1)).countP (· != 0) := by
  rw [blockOffsets, ← List.map_take, List.take_range, Nat.min_eq_left hbit, List.countP_map]
  exact List.countP_congr fun k hk => by
    rw [List.mem_range] at hk
    simp [getLsbD_blockBitMask offsets blockStart hsize, show k < blockSize by omega]

/-- `GetOffset` at an index whose block the table and the memory hold. -/
theorem getOffset_of_block (offsets : List (BitVec 32)) {mem : ByteMemory} (a : Accessor)
    (index : BitVec 32) (hidx : index.toNat < offsets.length) {pos : Nat}
    (htable : mem.loadLE (a.table + 4 * (index.toNat / kElementsPerIndex)) 4 = pos)
    (hpos : pos < 2 ^ 32)
    (hblock : mem.Holds (a.dataBegin + pos)
      (blockBytes offsets a.minimumOffset (index.toNat / kElementsPerIndex))) :
    a.getOffset mem index = offsets[index.toNat] := by
  set b := index.toNat / kElementsPerIndex with hb
  set bitIndex := index.toNat % kElementsPerIndex with hbitIndex
  have hindex : kElementsPerIndex * b + bitIndex = index.toNat := Nat.div_add_mod _ _
  have hsize := blockSize_le offsets b
  have hbit : bitIndex < blockSize offsets b := by
    simp only [blockSize, kElementsPerIndex_eq] at hindex hbitIndex ⊢
    omega
  have hbit16 : bitIndex < 16 := by
    simp only [kElementsPerIndex_eq] at hbitIndex
    omega
  unfold blockBytes at hblock
  rw [holds_append_iff, holds_cons_iff, holds_cons_iff] at hblock
  obtain ⟨⟨hhigh, hlow, -⟩, hdeltas⟩ := hblock
  unfold Accessor.getOffset
  dsimp only
  rw [htable, BitVec.toNat_ofNat, Nat.mod_eq_of_lt hpos, hhigh, hlow, mask_of_bytes,
    ← hbitIndex]
  set m := blockBitMask offsets (kElementsPerIndex * b) (blockSize offsets b) with hm
  set block := blockOffsets offsets (kElementsPerIndex * b) (blockSize offsets b) with hblock
  have hlen : bitIndex < block.length := by simpa [hblock, blockOffsets] using hbit
  have hget : block[bitIndex] = offsets[index.toNat] := by
    simp [hblock, blockOffsets, hindex, List.getD_eq_getElem?_getD, hidx]
  have hmbit : m.getLsbD bitIndex = decide (offsets[index.toNat] ≠ 0) := by
    rw [hm, getLsbD_blockBitMask _ _ hsize, hindex]
    simp [hbit, List.getD_eq_getElem?_getD, hidx]
  by_cases hzero : offsets[index.toNat] = 0
  · -- a zero offset has no bit and reads as zero
    rw [if_pos ((and_one_shiftLeft_eq_zero_iff m hbit16).mpr (by simp [hmbit, hzero])), hzero]
  · -- a nonzero one is the `c`-th nonzero offset of the block, `c` the mask bits up to it
    have hnz : (block[bitIndex] != 0) = true := by simpa [hget] using hzero
    rw [if_neg fun h => by simp [(and_one_shiftLeft_eq_zero_iff m hbit16).mp h] at hmbit; exact hzero hmbit,
      toNat_cpop_shiftLeft m hbit16, hm, countP_blockBitMask offsets _ hsize hbit, ← hblock]
    have hpos := countP_take_pos (· != 0) hlen hnz
    obtain ⟨hlt, hval⟩ := List.getElem?_eq_some_iff.mp (getElem?_filter_countP_take (· != 0) block hlen hnz)
    have hdeltas2 : mem.Holds (a.dataBegin + pos + 2) (deltaBytes a.minimumOffset (block.filter (· != 0))) :=
      hdeltas
    rw [show (block.take (bitIndex + 1)).countP (· != 0) =
      (block.take (bitIndex + 1)).countP (· != 0) - 1 + 1 by omega,
      sumDeltas_deltaBytes _ _ hdeltas2 _ hlt, hval, hget]

/-! ## Round trip -/

theorem length_alignmentPadVector (dest : List (BitVec 8)) :
    (alignmentPadVector dest 4).length < dest.length + 4 := by
  simp only [alignmentPadVector, List.length_append, List.length_replicate]
  omega

theorem holds_of_holds_alignmentPadVector {mem : ByteMemory} {base : Nat} {dest : List (BitVec 8)}
    (h : mem.Holds base (alignmentPadVector dest 4)) : mem.Holds base dest :=
  ((holds_append_iff mem).mp h).1

theorem build_eq (offsets : List (BitVec 32)) :
    build offsets =
      (alignmentPadVector (blocksData offsets (minimumOffset offsets) (numBlocks offsets)) 4 ++
          ((blockStarts offsets (minimumOffset offsets) (numBlocks offsets)).map
            (leBytes ·.toNat 4)).flatten,
        minimumOffset offsets,
        BitVec.ofNat 32
          (alignmentPadVector (blocksData offsets (minimumOffset offsets) (numBlocks offsets)) 4).length) := by
  unfold build
  dsimp only
  rw [buildBlocks_zero]

/-- Below `2^29` offsets, every block start and the table offset fit in `uint32_t`, and `GetOffset`
reads every offset back from an accessor over the data. -/
theorem getOffset_build (offsets : List (BitVec 32)) (hn : offsets.length < 2 ^ 29)
    {mem : ByteMemory} {base : Nat} (hmem : mem.Holds base (build offsets).1) {i : Nat}
    (hi : i < offsets.length) :
    (Accessor.ofOffsets base (build offsets).2.1 (build offsets).2.2).getOffset mem
      (BitVec.ofNat 32 i) = offsets[i] := by
  rw [build_eq] at hmem ⊢
  set minOffset := minimumOffset offsets
  set data := blocksData offsets minOffset (numBlocks offsets) with hdata
  set table := blockStarts offsets minOffset (numBlocks offsets) with htable
  have hnb : numBlocks offsets ≤ 2 ^ 25 := by
    simp only [numBlocks, kElementsPerIndex_eq]
    omega
  have hdataLen : data.length < 2 ^ 32 - 4 := by
    have := length_blocksData_le offsets minOffset (numBlocks offsets)
    rw [← hdata] at this
    omega
  have hpadLen := length_alignmentPadVector data
  have hi32 : (BitVec.ofNat 32 i).toNat = i := by
    rw [BitVec.toNat_ofNat, Nat.mod_eq_of_lt (by omega)]
  rw [holds_append_iff] at hmem
  obtain ⟨hpad, htableHolds⟩ := hmem
  set b := i / kElementsPerIndex with hb
  have hbn : b < numBlocks offsets := by
    simp only [numBlocks, kElementsPerIndex_eq] at hb ⊢
    omega
  have hprefixLen : (blocksData offsets minOffset b).length < 2 ^ 32 := by
    have := length_blocksData_le offsets minOffset b
    omega
  -- the table word of block `b` holds where the block starts
  have hword : mem.loadLE (base + (BitVec.ofNat 32 (alignmentPadVector data 4).length).toNat +
      4 * b) 4 = (blocksData offsets minOffset b).length := by
    have htableHolds' : mem.Holds (base + (alignmentPadVector data 4).length)
        ((table.map BitVec.toNat).map (leBytes · 4)).flatten := by
      rw [List.map_map]
      exact htableHolds
    have hbt : b < (table.map BitVec.toNat).length := by
      rw [List.length_map, htable, length_blockStarts]
      exact hbn
    rw [BitVec.toNat_ofNat, Nat.mod_eq_of_lt (by omega),
      loadLE_of_holds_leBytes mem (holds_flatten_leBytes mem htableHolds' hbt), List.getElem_map,
      getElem_blockStarts, BitVec.toNat_ofNat, Nat.mod_eq_of_lt hprefixLen, Nat.mod_eq_of_lt hprefixLen]
  have hblock : mem.Holds (base + (blocksData offsets minOffset b).length)
      (blockBytes offsets minOffset b) := by
    obtain ⟨rest, hrest⟩ := blocksData_eq_append offsets minOffset hbn
    have hholds := holds_of_holds_alignmentPadVector hpad
    rw [hdata, hrest, List.append_assoc, holds_append_iff, holds_append_iff] at hholds
    exact hholds.2.1
  have hidx : (BitVec.ofNat 32 i).toNat < offsets.length := by rwa [hi32]
  have hget := getOffset_of_block offsets
    (Accessor.ofOffsets base minOffset (BitVec.ofNat 32 (alignmentPadVector data 4).length))
    (BitVec.ofNat 32 i) hidx (by rw [hi32]; exact hword) hprefixLen (by rw [hi32]; exact hblock)
  simpa only [hi32] using hget

/-- The self-describing table: the minimum and the table offset read back from the two words in
front of the data. -/
theorem getOffset_buildData (offsets : List (BitVec 32)) (hn : offsets.length < 2 ^ 29)
    {mem : ByteMemory} {base : Nat} (hmem : mem.Holds base (buildData offsets)) {i : Nat}
    (hi : i < offsets.length) :
    (Accessor.ofData mem base).getOffset mem (BitVec.ofNat 32 i) = offsets[i] := by
  unfold buildData at hmem
  rw [holds_append_iff, holds_append_iff] at hmem
  obtain ⟨⟨hmin, htableOffset⟩, hdata⟩ := hmem
  simp only [List.length_append, length_leBytes] at htableOffset hdata
  have haccessor : Accessor.ofData mem base =
      Accessor.ofOffsets (base + 2 * 4) (build offsets).2.1 (build offsets).2.2 := by
    rw [Accessor.ofData, loadLE_of_holds_leBytes mem hmin, loadLE_of_holds_leBytes mem htableOffset]
    simp only [show 8 * 4 = 32 from rfl, BitVec.toNat_mod_cancel, BitVec.ofNat_toNat, BitVec.setWidth_eq]
  rw [haccessor]
  exact getOffset_build offsets hn hdata hi

theorem compact_offset_table_round_trip (offsets : List (BitVec 32)) (hn : offsets.length < 2 ^ 29)
    (i : Nat) (hi : i < offsets.length) :
    (∀ (mem : ByteMemory) (base : Nat), mem.Holds base (build offsets).1 →
      (Accessor.ofOffsets base (build offsets).2.1 (build offsets).2.2).getOffset mem
        (BitVec.ofNat 32 i) = offsets[i]) ∧
    (∀ (mem : ByteMemory) (base : Nat), mem.Holds base (buildData offsets) →
      (Accessor.ofData mem base).getOffset mem (BitVec.ofNat 32 i) = offsets[i]) :=
  ⟨fun _ _ hmem => getOffset_build offsets hn hmem hi,
    fun _ _ hmem => getOffset_buildData offsets hn hmem hi⟩

theorem compact_offset_table_round_trip_wrapping :
    ([16, 0, 0xfffffff0, 32] : List (BitVec 32)).length < 2 ^ 29 ∧
      2 < ([16, 0, 0xfffffff0, 32] : List (BitVec 32)).length ∧
      ∀ (mem : ByteMemory) (base : Nat), mem.Holds base (buildData [16, 0, 0xfffffff0, 32]) →
        (Accessor.ofData mem base).getOffset mem (BitVec.ofNat 32 2) = 0xfffffff0 :=
  ⟨by decide, by decide,
    (compact_offset_table_round_trip [16, 0, 0xfffffff0, 32] (by decide) 2 (by decide)).2⟩

/-! ## Data past `2^32` bytes

A vector of ones gives blocks of eighteen bytes: a full mask and sixteen zero deltas.  With
`16 * 238609295` of them the blocks take `2^32 + 14` bytes, two bytes of padding follow, and the
table offset `2^32 + 16` is stored as `16`.  The table word `GetOffset(0)` reads there is the
bytes `00 00 FF FF` of the blocks, so it looks for block 0 at `0xFFFF0000`, which is byte 6 of
some block, a zero delta: the mask reads as zero and `GetOffset(0)` returns 0. -/

section Wide

/-- The block of sixteen ones. -/
def onesBlock : List (BitVec 8) := [0xff, 0xff] ++ List.replicate 16 0

theorem foldl_minimumOffset_one (k : Nat) :
    (List.replicate k (1 : BitVec 32)).foldl (fun minOffset offset =>
      if offset ≠ 0 then (if offset < minOffset then offset else minOffset) else minOffset) 1 = 1 := by
  induction k with
  | zero => rfl
  | succ k ih => rw [List.replicate_succ, List.foldl_cons, if_pos (by decide), if_neg (by decide), ih]

theorem minimumOffset_replicate_one {n : Nat} (hn : 0 < n) :
    minimumOffset (List.replicate n 1) = 1 := by
  obtain ⟨k, rfl⟩ := Nat.exists_eq_succ_of_ne_zero (Nat.pos_iff_ne_zero.mp hn)
  rw [minimumOffset, List.replicate_succ, List.foldl_cons, if_pos (by decide), if_pos (by decide),
    foldl_minimumOffset_one]

theorem deltaBytes_replicate_one (k : Nat) :
    deltaBytes 1 (List.replicate k 1) = List.replicate k 0 := by
  induction k with
  | zero => rfl
  | succ k ih =>
    rw [List.replicate_succ, deltaBytes, ih, sub_self, show (0 : BitVec 32).toNat = 0 from rfl,
      encode_of_lt (by decide)]
    rfl

theorem blockBytes_replicate_one {k b : Nat} (hb : b < k) :
    blockBytes (List.replicate (16 * k) 1) 1 b = onesBlock := by
  have hsize : blockSize (List.replicate (16 * k) 1) b = 16 := by
    simp only [blockSize, List.length_replicate, kElementsPerIndex_eq]
    omega
  have hget : ∀ i < 16, (List.replicate (16 * k) (1 : BitVec 32)).getD (16 * b + i) 0 = 1 := by
    intro i hi
    rw [List.getD_eq_getElem _ _ (by rw [List.length_replicate]; omega), List.getElem_replicate]
  have hoffsets : blockOffsets (List.replicate (16 * k) 1) (kElementsPerIndex * b) 16 =
      List.replicate 16 1 := by
    rw [List.eq_replicate_iff]
    refine ⟨by simp [blockOffsets], fun o ho => ?_⟩
    obtain ⟨i, hi, rfl⟩ := List.mem_map.mp ho
    exact hget i (List.mem_range.mp hi)
  have hmask : blockBitMask (List.replicate (16 * k) 1) (kElementsPerIndex * b) 16 = BitVec.allOnes 16 := by
    apply BitVec.eq_of_getLsbD_eq
    intro j hj
    rw [getLsbD_blockBitMask _ _ (Nat.le_refl 16), BitVec.getLsbD_allOnes, kElementsPerIndex_eq, hget j hj]
    simp [hj]
  rw [blockBytes, hsize, hoffsets, hmask, List.filter_replicate, if_pos (by decide),
    deltaBytes_replicate_one]
  rfl

theorem blocksData_replicate_one {k j : Nat} (hj : j ≤ k) :
    blocksData (List.replicate (16 * k) 1) 1 j = (List.replicate j onesBlock).flatten := by
  induction j with
  | zero => rfl
  | succ j ih =>
    rw [blocksData_succ, ih (Nat.le_of_succ_le hj), blockBytes_replicate_one (Nat.lt_of_succ_le hj),
      List.replicate_succ', List.flatten_append, List.flatten_singleton]

theorem getD_flatten_replicate {α : Type} (l : List α) (d : α) :
    ∀ (k p : Nat), p < k * l.length →
      (List.replicate k l).flatten.getD p d = l.getD (p % l.length) d
  | 0, p, hp => by simp at hp
  | k + 1, p, hp => by
    rw [List.replicate_succ, List.flatten_cons, List.getD_eq_getElem?_getD, List.getD_eq_getElem?_getD]
    by_cases hpl : p < l.length
    · rw [List.getElem?_append_left hpl, Nat.mod_eq_of_lt hpl]
    · have hrest := getD_flatten_replicate l d k (p - l.length) (by rw [Nat.succ_mul] at hp; omega)
      rw [List.getD_eq_getElem?_getD, List.getD_eq_getElem?_getD] at hrest
      rw [List.getElem?_append_right (Nat.le_of_not_lt hpl), hrest,
        Nat.mod_eq_sub_mod (Nat.le_of_not_lt hpl)]

/-- `GetOffset(0)` over the data of `16 * k` ones, when their blocks take `2^32 + 14` bytes. -/
theorem getOffset_wide_ones {k : Nat} (hk : 18 * k = 2 ^ 32 + 14) :
    (Accessor.ofOffsets 0 (build (List.replicate (16 * k) 1)).2.1
        (build (List.replicate (16 * k) 1)).2.2).getOffset
      (ofList (build (List.replicate (16 * k) 1)).1) 0 = 0 := by
  have hmin : minimumOffset (List.replicate (16 * k) 1) = 1 :=
    minimumOffset_replicate_one (by omega)
  have hnb : numBlocks (List.replicate (16 * k) (1 : BitVec 32)) = k := by
    simp only [numBlocks, List.length_replicate, kElementsPerIndex_eq]
    omega
  rw [build_eq, hmin, hnb, blocksData_replicate_one (Nat.le_refl k)]
  set blocks := (List.replicate k onesBlock).flatten with hblocks
  have hlen : blocks.length = 2 ^ 32 + 14 := by
    rw [hblocks, List.length_flatten, List.map_replicate, List.sum_replicate_nat,
      show onesBlock.length = 18 from rfl]
    omega
  have hpad : alignmentPadVector blocks 4 = blocks ++ List.replicate 2 0 := by
    rw [alignmentPadVector, hlen]
    rfl
  -- below the blocks' end the memory repeats the block of ones
  have hread : ∀ (rest : List (BitVec 8)) (p : Nat), p < 2 ^ 32 + 14 →
      ofList (alignmentPadVector blocks 4 ++ rest) p = onesBlock.getD (p % 18) 0 := by
    intro rest p hp
    rw [ofList, hpad, List.append_assoc, List.getD_append _ _ _ _ (by omega), hblocks,
      getD_flatten_replicate onesBlock 0 k p (by rw [show onesBlock.length = 18 from rfl]; omega)]
    rfl
  set mem := ofList (alignmentPadVector blocks 4 ++
    ((blockStarts (List.replicate (16 * k) 1) 1 k).map (leBytes ·.toNat 4)).flatten) with hmem
  have hbyte : ∀ p < 2 ^ 32 + 14, mem p = onesBlock.getD (p % 18) 0 := hread _
  -- the table offset `2^32 + 16` is stored as 16
  have htable : (Accessor.ofOffsets 0 1 (BitVec.ofNat 32 (alignmentPadVector blocks 4).length)).table +
      4 * ((0 : BitVec 32).toNat / kElementsPerIndex) = 16 := by
    rw [hpad, List.length_append, hlen, List.length_replicate]
    rfl
  -- and the word there is the end of block 0 and the mask of block 1
  have hword : mem.loadLE 16 4 = 0xffff0000 := by
    simp only [loadLE, hbyte 16 (by omega), hbyte 17 (by omega), hbyte 18 (by omega),
      hbyte 19 (by omega)]
    decide
  unfold Accessor.getOffset
  dsimp only
  rw [htable, hword, show (Accessor.ofOffsets 0 1 (BitVec.ofNat 32 (alignmentPadVector blocks 4).length)).dataBegin = 0
    from rfl, show (BitVec.ofNat 32 0xffff0000).toNat = 0xffff0000 from rfl, Nat.zero_add,
    hbyte 0xffff0000 (by omega), hbyte (0xffff0000 + 1) (by omega)]
  -- bytes 6 and 7 of a block are zero deltas: the mask reads as zero
  rw [if_pos (by decide)]

/-- With `16 * 238609295` ones, the data passes `2^32` bytes and `GetOffset(0)` does not return
`offsets[0]`. -/
theorem build_wide_offsets_misread :
    (Accessor.ofOffsets 0 (build (List.replicate (16 * 238609295) 1)).2.1
        (build (List.replicate (16 * 238609295) 1)).2.2).getOffset
      (ofList (build (List.replicate (16 * 238609295) 1)).1) 0 ≠
      (List.replicate (16 * 238609295) (1 : BitVec 32)).getD 0 0 := by
  rw [getOffset_wide_ones (by omega), List.getD_eq_getElem?_getD, List.getElem?_replicate,
    if_pos (by omega)]
  decide

end Wide

end Art.CompactOffsetTable
