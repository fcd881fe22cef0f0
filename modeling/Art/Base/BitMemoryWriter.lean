import Art.Base.BitMemoryRegion
import Art.Runtime.IndirectReferenceTable

/-!
# `BitMemoryWriter<Vector>` over a byte vector (`libartbase/base/bit_memory_region.h`)

The writer appends bits to a byte vector at an absolute bit position `bit_offset_`, which starts
at the constructor's `bit_offset`, also kept as `bit_start_`.  `Allocate` resizes the vector to
the bytes the new position needs and hands out the region from the old position; each write
stores into that region through `out_->data()`.  `ByteAlign` advances the position by what
rounds `bit_start_ + bit_offset_` up to a byte.

`BitMemoryWriter` in `Art.Base.BitMemory` is the writer as the bit string it has written from a
start of zero; this one keeps the vector, the start and the position as the source does.
-/

namespace Art

open ByteMemory

/-- `std::vector<uint8_t>::resize(n)`: the first `n` bytes, zero bytes appended as needed. -/
def resizeVector (out : List (BitVec 8)) (n : Nat) : List (BitVec 8) :=
  out.take n ++ List.replicate (n - out.length) 0

structure VectorBitMemoryWriter where
  out : List (BitVec 8)
  bitStart : Nat
  bitOffset : Nat
  deriving DecidableEq, Repr

namespace VectorBitMemoryWriter

/-- `BitMemoryWriter(out, bit_offset)`. -/
def create (out : List (BitVec 8)) (bitOffset : Nat) : VectorBitMemoryWriter :=
  ⟨out, bitOffset, bitOffset⟩

def getWrittenRegion (w : VectorBitMemoryWriter) : BitMemoryRegion :=
  ⟨w.bitStart, w.bitOffset - w.bitStart⟩

def numberOfWrittenBits (w : VectorBitMemoryWriter) : Nat := w.bitOffset - w.bitStart

/-- `Allocate(bit_length)`: the region it returns and the writer after. -/
def allocate (w : VectorBitMemoryWriter) (bitLength : Nat) :
    BitMemoryRegion × VectorBitMemoryWriter :=
  (⟨w.bitOffset, bitLength⟩,
    { w with
      out := resizeVector w.out (bitsToBytesRoundUp (w.bitOffset + bitLength))
      bitOffset := w.bitOffset + bitLength })

/-- A store through `out_->data()`: the vector's bytes, as memory, after `store`. -/
def storeData (w : VectorBitMemoryWriter) (store : ByteMemory → ByteMemory) :
    VectorBitMemoryWriter :=
  { w with out := (List.range w.out.length).map (store (ofList w.out)) }

/-- `WriteRegion(region)`, for a region in memory `srcMem` of its own. -/
def writeRegion (w : VectorBitMemoryWriter) (srcMem : ByteMemory) (region : BitMemoryRegion) :
    VectorBitMemoryWriter :=
  let (r, w) := w.allocate region.bitSize
  w.storeData fun mem => BitMemoryRegion.storeBitsFrom mem r 0 srcMem region region.bitSize

def writeBits (w : VectorBitMemoryWriter) (value : BitVec 32) (bitLength : Nat) :
    VectorBitMemoryWriter :=
  let (r, w) := w.allocate bitLength
  w.storeData fun mem => BitMemoryRegion.storeBits mem r 0 value bitLength

def writeBit (w : VectorBitMemoryWriter) (value : Bool) : VectorBitMemoryWriter :=
  let (r, w) := w.allocate 1
  w.storeData fun mem => BitMemoryRegion.storeBit mem r 0 value

/-- `WriteInterleavedVarints(values)`: the headers, then the large values. -/
def writeInterleavedVarints (w : VectorBitMemoryWriter) (values : List (BitVec 32)) :
    VectorBitMemoryWriter :=
  let w := values.foldl (fun w value =>
    w.writeBits (BitVec.ofNat 32 (BitMemoryWriter.varintHeader value.toNat)) kVarintBits) w
  values.foldl (fun w value =>
    if value.toNat > kVarintMax then
      w.writeBits value (bitsToBytesRoundUp (minimumBitsToStore value.toNat) * kBitsPerByte)
    else w) w

def writeVarint (w : VectorBitMemoryWriter) (value : BitVec 32) : VectorBitMemoryWriter :=
  w.writeInterleavedVarints [value]

/-- `ByteAlign()`: `end = bit_start_ + bit_offset_; bit_offset_ += RoundUp(end, 8) - end`. -/
def byteAlign (w : VectorBitMemoryWriter) : VectorBitMemoryWriter :=
  let end_ := w.bitStart + w.bitOffset
  { w with bitOffset := w.bitOffset + (roundUp end_ kBitsPerByte - end_) }

/-- The calls a user of the writer makes. -/
inductive Call where
  | writeBits (value : BitVec 32) (bitLength : Nat)
  | writeBit (value : Bool)
  | writeRegion (srcMem : ByteMemory) (region : BitMemoryRegion)
  | writeInterleavedVarints (values : List (BitVec 32))
  | byteAlign

/-- The `DCHECK`s of a call: `WriteBits` stores at most 32 bits, of a value that fits them. -/
def Call.Pre : Call → Prop
  | .writeBits value bitLength => bitLength ≤ 32 ∧ value.toNat < 2 ^ bitLength
  | _ => True

instance (c : Call) : Decidable c.Pre :=
  match c with
  | .writeBits value bitLength =>
    inferInstanceAs (Decidable (bitLength ≤ 32 ∧ value.toNat < 2 ^ bitLength))
  | .writeBit _ => isTrue trivial
  | .writeRegion _ _ => isTrue trivial
  | .writeInterleavedVarints _ => isTrue trivial
  | .byteAlign => isTrue trivial

def Call.apply (w : VectorBitMemoryWriter) : Call → VectorBitMemoryWriter
  | .writeBits value bitLength => w.writeBits value bitLength
  | .writeBit value => w.writeBit value
  | .writeRegion srcMem region => w.writeRegion srcMem region
  | .writeInterleavedVarints values => w.writeInterleavedVarints values
  | .byteAlign => w.byteAlign

def run (w : VectorBitMemoryWriter) (calls : List Call) : VectorBitMemoryWriter :=
  calls.foldl Call.apply w

end VectorBitMemoryWriter

end Art
