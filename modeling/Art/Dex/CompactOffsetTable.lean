import Art.Base.Leb128

/-!
# Compact offset tables (`libdexfile/dex/compact_offset_table.cc`)

`Build` cuts the offsets into blocks of `kElementsPerIndex` = 16.  A block is a big-endian 16-bit
mask of its nonzero offsets followed by one ULEB128 delta for each of them, the first taken from
the least nonzero offset of the whole vector and each later one from the offset before it, in
`uint32_t` arithmetic.  The data is then padded with zeros to a multiple of four bytes and the
table of block starts follows, one little-endian `uint32_t` each.  Both the block starts and the
table offset are `out_data->size()` stored into a `uint32_t`, so `BitVec.ofNat 32` here.

`GetOffset(index)` reads the start of block `index / 16` from the table, tests the index's bit of
the mask, and adds to the minimum offset as many deltas as there are mask bits at or below it,
counted by a population count of the mask shifted to the top of a 64-bit `uintptr_t`.
-/

namespace Art.CompactOffsetTable

open ByteMemory

def kElementsPerIndex : Nat := 16

/-- `AlignmentPadVector(dest, alignment)` (`compact_dex_utils.h`): zeros pushed until the size is
a multiple of `alignment`. -/
def alignmentPadVector (dest : List (BitVec 8)) (alignment : Nat) : List (BitVec 8) :=
  dest ++ List.replicate ((alignment - dest.length % alignment) % alignment) 0

/-- The loop that computes `*out_min_offset`: `std::min` over the nonzero offsets, starting from
`UINT32_MAX`. -/
def minimumOffset (offsets : List (BitVec 32)) : BitVec 32 :=
  offsets.foldl (fun minOffset offset =>
    if offset ≠ 0 then (if offset < minOffset then offset else minOffset) else minOffset)
    (BitVec.allOnes 32)

/-- The mask of the block of `blockSize` offsets from `blockStart`: bit `i` for a nonzero
`offsets[block_start + i]`. -/
def blockBitMask (offsets : List (BitVec 32)) (blockStart blockSize : Nat) : BitVec 16 :=
  (List.range blockSize).foldl (fun bitMask i =>
    if offsets.getD (blockStart + i) 0 ≠ 0 then bitMask ||| 1 <<< i else bitMask) 0

/-- The delta loop of a block: each nonzero offset as the ULEB128 of its difference from
`prev_offset`, which then becomes that offset.  The state is the data and `prev_offset`. -/
def writeBlockDeltas (offsets : List (BitVec 32)) (blockStart blockSize : Nat)
    (minOffset : BitVec 32) (data : List (BitVec 8)) : List (BitVec 8) :=
  ((List.range blockSize).foldl (fun (acc : List (BitVec 8) × BitVec 32) i =>
    let offset := offsets.getD (blockStart + i) 0
    if offset ≠ 0 then (encodeUnsignedLeb128Vector acc.1 (offset - acc.2), offset) else acc)
    (data, minOffset)).1

/-- The `while (block_start < offsets.size())` loop, with fuel: every block takes at least one
offset, so `offsets.size()` rounds are enough.  It returns the data and the table of block
starts. -/
def buildBlocks (offsets : List (BitVec 32)) (minOffset : BitVec 32) :
    Nat → Nat → List (BitVec 8) → List (BitVec 32) → List (BitVec 8) × List (BitVec 32)
  | 0, _, data, offsetTable => (data, offsetTable)
  | fuel + 1, blockStart, data, offsetTable =>
    if blockStart < offsets.length then
      let offsetTable := offsetTable ++ [BitVec.ofNat 32 data.length]
      let blockSize := min (offsets.length - blockStart) kElementsPerIndex
      let bitMask := blockBitMask offsets blockStart blockSize
      let data := data ++ [(bitMask >>> 8).setWidth 8, bitMask.setWidth 8]
      let data := writeBlockDeltas offsets blockStart blockSize minOffset data
      buildBlocks offsets minOffset fuel (blockStart + blockSize) data offsetTable
    else (data, offsetTable)

/-- `Build(offsets, &data, &min_offset, &table_offset)`: the data, the minimum offset and the
table offset. -/
def build (offsets : List (BitVec 32)) : List (BitVec 8) × BitVec 32 × BitVec 32 :=
  let minOffset := minimumOffset offsets
  let (data, offsetTable) := buildBlocks offsets minOffset offsets.length 0 [] []
  let data := alignmentPadVector data 4
  let tableOffset := BitVec.ofNat 32 data.length
  (data ++ (offsetTable.map (leBytes ·.toNat 4)).flatten, minOffset, tableOffset)

/-- `Build(offsets, &data)`: the minimum offset and the table offset are written in front of
the data. -/
def buildData (offsets : List (BitVec 32)) : List (BitVec 8) :=
  let (data, minOffset, tableOffset) := build offsets
  leBytes minOffset.toNat 4 ++ leBytes tableOffset.toNat 4 ++ data

/-- An `Accessor`: the address of the table, the minimum offset and the address of the data. -/
structure Accessor where
  table : Nat
  minimumOffset : BitVec 32
  dataBegin : Nat

/-- `Accessor(data_begin, minimum_offset, table_offset)`. -/
def Accessor.ofOffsets (dataBegin : Nat) (minimumOffset tableOffset : BitVec 32) : Accessor :=
  ⟨dataBegin + tableOffset.toNat, minimumOffset, dataBegin⟩

/-- `Accessor(data_begin)`: the minimum offset and the table offset are the two `uint32_t`s at
`data_begin`, and the data follows them. -/
def Accessor.ofData (mem : ByteMemory) (dataBegin : Nat) : Accessor :=
  ofOffsets (dataBegin + 2 * 4) (BitVec.ofNat 32 (mem.loadLE dataBegin 4))
    (BitVec.ofNat 32 (mem.loadLE (dataBegin + 4) 4))

/-- The `do { current_offset += DecodeUnsignedLeb128(&block); } while (--count > 0)` loop, run
`count` times; `GetOffset` only enters it with `count ≥ 1`. -/
def sumDeltas (mem : ByteMemory) : Nat → Nat → BitVec 32 → BitVec 32
  | 0, _, currentOffset => currentOffset
  | count + 1, block, currentOffset =>
    let (delta, block) := decodeUnsignedLeb128 mem block
    sumDeltas mem count block (currentOffset + delta)

/-- `GetOffset(index)`. -/
def Accessor.getOffset (a : Accessor) (mem : ByteMemory) (index : BitVec 32) : BitVec 32 :=
  let offset := BitVec.ofNat 32 (mem.loadLE (a.table + 4 * (index.toNat / kElementsPerIndex)) 4)
  let bitIndex := index.toNat % kElementsPerIndex
  let block := a.dataBegin + offset.toNat
  let bitMask : BitVec 16 := (mem block).setWidth 16
  let bitMask := (bitMask <<< 8) ||| (mem (block + 1)).setWidth 16
  if bitMask &&& 1 <<< bitIndex = 0 then 0
  else
    -- the bits above the index fall off the top of the 64-bit word
    let count := ((bitMask.setWidth 64) <<< (64 - 1 - bitIndex)).cpop.toNat
    sumDeltas mem count (block + 2) a.minimumOffset

end Art.CompactOffsetTable
