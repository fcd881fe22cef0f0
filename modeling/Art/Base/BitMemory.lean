import Art.Lib.BitList

/-!
# Bit streams (`libartbase/base/bit_memory_region.h`, `bit_utils.h`)

Memory is a stream of bits, the bit at offset `i` being bit `i % 8` of byte `i / 8`.  A
`BitMemoryReader` reads from `start` on and counts what it has read; a `BitMemoryWriter` appends
to an output vector.  Both writers of this development start at bit 0 of an empty vector
(`BitMemoryWriter out(&buffer)` in `StackMapStream::Encode` and in `CodeInfo::Deduper`), so the
writer is the list of bits written so far.

`LoadBits` and `StoreBits` move whole words; here a load is the number its bits spell, which is
what the word arithmetic computes.
-/

namespace Art

open BitList

def kBitsPerByte : Nat := 8

/-- The number of bits a varint's first field takes. -/
def kVarintBits : Nat := 4

/-- The largest value a varint stores in its first field. -/
def kVarintMax : Nat := 11

/-- `MinimumBitsToStore`: `MostSignificantBit(value) + 1`, so `0` for `0`. -/
def minimumBitsToStore (value : Nat) : Nat :=
  if value = 0 then 0 else Nat.log2 value + 1

def bitsToBytesRoundUp (numBits : Nat) : Nat := (numBits + kBitsPerByte - 1) / kBitsPerByte

structure BitMemoryReader where
  data : List Bool
  start : Nat
  numberOfReadBits : Nat

namespace BitMemoryReader

/-- `BitMemoryReader(data, bit_offset)`: nothing read yet. -/
def create (data : List Bool) (start : Nat) : BitMemoryReader := ⟨data, start, 0⟩

/-- `GetReadRegion`: every bit read so far. -/
def getReadRegion (r : BitMemoryReader) : List Bool := slice r.data r.start r.numberOfReadBits

def readRegion (r : BitMemoryReader) (bitLength : Nat) : List Bool × BitMemoryReader :=
  (slice r.data (r.start + r.numberOfReadBits) bitLength,
    { r with numberOfReadBits := r.numberOfReadBits + bitLength })

def readBits (r : BitMemoryReader) (bitLength : Nat) : Nat × BitMemoryReader :=
  let (region, r) := r.readRegion bitLength
  (toNat region, r)

/-- `ReadVarint`: values up to `kVarintMax` in the first four bits, larger ones in the whole bytes
that follow, their count in the first four bits above `kVarintMax`. -/
def readVarint (r : BitMemoryReader) : Nat × BitMemoryReader :=
  let (x, r) := r.readBits kVarintBits
  if x ≤ kVarintMax then (x, r) else r.readBits ((x - kVarintMax) * kBitsPerByte)

/-- The second loop of `ReadInterleavedVarints`: the bytes of each large value, in order. -/
def readLargeVarints : List Nat → BitMemoryReader → List Nat × BitMemoryReader
  | [], r => ([], r)
  | x :: xs, r =>
    let (value, r) := if x > kVarintMax then r.readBits ((x - kVarintMax) * kBitsPerByte) else (x, r)
    let (values, r) := readLargeVarints xs r
    (value :: values, r)

/-- `ReadInterleavedVarints<N>`: the `N` first fields in one read, then the large values. -/
def readInterleavedVarints (r : BitMemoryReader) (n : Nat) : List Nat × BitMemoryReader :=
  let (data, r) := r.readBits (n * kVarintBits)
  let values := (List.range n).map fun i => data / 2 ^ (i * kVarintBits) % 2 ^ kVarintBits
  readLargeVarints values r

end BitMemoryReader

structure BitMemoryWriter where
  bits : List Bool

namespace BitMemoryWriter

def numberOfWrittenBits (w : BitMemoryWriter) : Nat := w.bits.length

def writeBits (w : BitMemoryWriter) (value bitLength : Nat) : BitMemoryWriter :=
  ⟨w.bits ++ ofNat value bitLength⟩

def writeRegion (w : BitMemoryWriter) (region : List Bool) : BitMemoryWriter :=
  ⟨w.bits ++ region⟩

/-- The first field of a varint: the value, or `kVarintMax` plus its byte count. -/
def varintHeader (value : Nat) : Nat :=
  if value > kVarintMax then kVarintMax + bitsToBytesRoundUp (minimumBitsToStore value) else value

def writeInterleavedVarints (w : BitMemoryWriter) (values : List Nat) : BitMemoryWriter :=
  let w := values.foldl (fun w value => w.writeBits (varintHeader value) kVarintBits) w
  values.foldl (fun w value =>
    if value > kVarintMax then
      w.writeBits value (bitsToBytesRoundUp (minimumBitsToStore value) * kBitsPerByte)
    else w) w

def writeVarint (w : BitMemoryWriter) (value : Nat) : BitMemoryWriter :=
  w.writeInterleavedVarints [value]

/-- `ByteAlign`: skip to the next byte boundary; the skipped bits of the vector are zero. -/
def byteAlign (w : BitMemoryWriter) : BitMemoryWriter :=
  ⟨w.bits ++ List.replicate ((kBitsPerByte - w.bits.length % kBitsPerByte) % kBitsPerByte) false⟩

end BitMemoryWriter

end Art
