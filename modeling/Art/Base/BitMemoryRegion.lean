import Art.Lib.ByteMemory
import Art.Base.BitMemory

/-!
# `BitMemoryRegion`

A region is a bit start and a bit size over byte memory.  The constructor normalises `data_` to a
page-aligned address and keeps the rest of the offset in `bit_start_`; the memory here is indexed
from that `data_`, so `bitStart` is the absolute bit address and every word load is naturally
aligned.  `LoadBits` reads the aligned word holding the first bit and the one holding the last
(they may be the same), for any unsigned `Result` of `width` bits; `StoreBits` writes a
`uint32_t` byte by byte.  The region-to-region operations, `PopCount`, `HasSomeBitSet` and
`Compare` walk the range in `uint32_t` chunks and finish with the partial chunk that is left.
-/

namespace Art

open ByteMemory

/-- `BitSizeOf<size_t>()`, the default `Result` of `LoadBits`, on 64-bit targets. -/
def kSizeTBits : Nat := 64

/-- `BitSizeOf<uint32_t>()`, the chunk of the region loops. -/
def kNumBits : Nat := 32

structure BitMemoryRegion where
  bitStart : Nat
  bitSize : Nat
  deriving DecidableEq, Repr

namespace BitMemoryRegion

def subregion (r : BitMemoryRegion) (bitOffset bitLength : Nat) : BitMemoryRegion :=
  ⟨r.bitStart + bitOffset, bitLength⟩

def loadBit (mem : ByteMemory) (r : BitMemoryRegion) (bitOffset : Nat) : Bool :=
  let index := (r.bitStart + bitOffset) / kBitsPerByte
  let shift := (r.bitStart + bitOffset) % kBitsPerByte
  ((mem index >>> shift) &&& 1#8) != 0#8

/-- `LoadBits<Result>` for a `Result` of `width` bits. -/
def loadBits (width : Nat) (mem : ByteMemory) (r : BitMemoryRegion) (bitOffset bitLength : Nat) :
    BitVec width :=
  if bitLength = 0 then 0 else
  let index := (r.bitStart + bitOffset) / width
  let shift := (r.bitStart + bitOffset) % width
  let value := mem.loadWord width index >>> shift
  -- the word holding the most significant bit, which may be the same one
  let extra := mem.loadWord width (index + (shift + (bitLength - 1)) / width)
  let clear := (BitVec.allOnes width <<< 1) <<< (bitLength - 1)
  (value ||| (extra <<< ((width - shift) &&& (width - 1)))) &&& ~~~clear

/-- `data_[index] &= ~clear; data_[index] |= set;`, in `uint32_t` and truncated to the byte. -/
def updateByte (mem : ByteMemory) (index : Nat) (clear set : BitVec 32) : ByteMemory :=
  let mem := Function.update mem index (BitVec.setWidth 8 ((mem index).setWidth 32 &&& ~~~clear))
  Function.update mem index (BitVec.setWidth 8 ((mem index).setWidth 32 ||| set))

/-- The loop of `StoreBits`: byte `index` gets the bits of `value` from `finishedBits`. -/
def storeBitsLoop (mask value : BitVec 32) (bitLength : Nat) (mem : ByteMemory)
    (index finishedBits : Nat) : ByteMemory :=
  if finishedBits < bitLength then
    let mem := updateByte mem index (mask >>> finishedBits) (value >>> finishedBits)
    storeBitsLoop mask value bitLength mem (index + 1) (finishedBits + kBitsPerByte)
  else mem
termination_by bitLength - finishedBits
decreasing_by unfold kBitsPerByte; omega

/-- `StoreBit(bit_offset, value)`: clear the bit, then set it to `value`. -/
def storeBit (mem : ByteMemory) (r : BitMemoryRegion) (bitOffset : Nat) (value : Bool) :
    ByteMemory :=
  let index := (r.bitStart + bitOffset) / kBitsPerByte
  let shift := (r.bitStart + bitOffset) % kBitsPerByte
  let mem := Function.update mem index (mem index &&& ~~~(1#8 <<< shift))
  Function.update mem index (mem index ||| (if value then 1#8 else 0#8) <<< shift)

def storeBits (mem : ByteMemory) (r : BitMemoryRegion) (bitOffset : Nat) (value : BitVec 32)
    (bitLength : Nat) : ByteMemory :=
  if bitLength = 0 then mem else
  let mask : BitVec 32 := BitVec.allOnes 32 >>> (32 - bitLength)
  let index := (r.bitStart + bitOffset) / kBitsPerByte
  let shift := (r.bitStart + bitOffset) % kBitsPerByte
  let mem := updateByte mem index (mask <<< shift) (value <<< shift)
  storeBitsLoop mask value bitLength mem (index + 1) (kBitsPerByte - shift)

/-- The chunked loops: `body` on each whole `uint32_t` chunk from `bit`, then on what is left. -/
def forEachChunk {σ : Type} (bitLength : Nat) (body : Nat → Nat → σ → σ) (bit : Nat) (s : σ) : σ :=
  if bit + kNumBits ≤ bitLength then forEachChunk bitLength body (bit + kNumBits) (body bit kNumBits s)
  else body bit (bitLength - bit) s
termination_by bitLength - bit
decreasing_by unfold kNumBits at *; omega

/-- The chunked loops that return early: the first chunk whose `body` has a result. -/
def firstChunk {α : Type} (bitLength : Nat) (body : Nat → Nat → Option α) (bit : Nat) : Option α :=
  if bit + kNumBits ≤ bitLength then
    match body bit kNumBits with
    | some a => some a
    | none => firstChunk bitLength body (bit + kNumBits)
  else body bit (bitLength - bit)
termination_by bitLength - bit
decreasing_by unfold kNumBits at *; omega

/-- `StoreBits(bit_offset, src, bit_length)`. -/
def storeBitsRegion (mem : ByteMemory) (r : BitMemoryRegion) (bitOffset : Nat)
    (src : BitMemoryRegion) (bitLength : Nat) : ByteMemory :=
  forEachChunk bitLength (fun bit numBits mem =>
    storeBits mem r (bitOffset + bit) ((loadBits kSizeTBits mem src bit numBits).setWidth 32)
      numBits) 0 mem

/-- `StoreBits(bit_offset, src, bit_length)` where `src` lies in memory of its own, such as the
input a writer copies from. -/
def storeBitsFrom (mem : ByteMemory) (r : BitMemoryRegion) (bitOffset : Nat) (srcMem : ByteMemory)
    (src : BitMemoryRegion) (bitLength : Nat) : ByteMemory :=
  forEachChunk bitLength (fun bit numBits mem =>
    storeBits mem r (bitOffset + bit) ((loadBits kSizeTBits srcMem src bit numBits).setWidth 32)
      numBits) 0 mem

def orBits (mem : ByteMemory) (r : BitMemoryRegion) (bitOffset : Nat) (src : BitMemoryRegion)
    (bitLength : Nat) : ByteMemory :=
  forEachChunk bitLength (fun bit numBits mem =>
    let oldBits := loadBits kSizeTBits mem r (bitOffset + bit) numBits
    storeBits mem r (bitOffset + bit)
      ((oldBits ||| loadBits kSizeTBits mem src bit numBits).setWidth 32) numBits) 0 mem

def popCount (mem : ByteMemory) (r : BitMemoryRegion) (bitOffset bitLength : Nat) : Nat :=
  forEachChunk bitLength (fun bit numBits count =>
    count + (loadBits kSizeTBits mem r (bitOffset + bit) numBits).cpop.toNat) 0 0

def hasSomeBitSet (mem : ByteMemory) (r : BitMemoryRegion) (bitOffset bitLength : Nat) : Bool :=
  (firstChunk bitLength (fun bit numBits =>
    if loadBits kSizeTBits mem r (bitOffset + bit) numBits != 0 then some true else none) 0).getD
    false

/-- The comparison of one chunk: `none` when the two are equal. -/
def compareChunk (mem : ByteMemory) (lhs rhs : BitMemoryRegion) (bit numBits : Nat) : Option Int :=
  let lhsBits := (loadBits kSizeTBits mem lhs bit numBits).setWidth 32
  let rhsBits := (loadBits kSizeTBits mem rhs bit numBits).setWidth 32
  if lhsBits != rhsBits then some (if lhsBits < rhsBits then -1 else 1) else none

def compare (mem : ByteMemory) (lhs rhs : BitMemoryRegion) : Int :=
  if lhs.bitSize != rhs.bitSize then (if lhs.bitSize < rhs.bitSize then -1 else 1)
  else (firstChunk lhs.bitSize (compareChunk mem lhs rhs) 0).getD 0

end BitMemoryRegion

end Art
