import Art.Base.BitUtils
import Art.Lib.WordBits
import Art.Lib.Word

/-!
# Expanding bit vectors (`libartbase/base/bit_vector.h`, `bit_vector.cc`)

A `BitVector` is its storage, `storage_size_` words of 32 bits.  Bit `idx` is in word
`WordIndex(idx) = idx >> 5` under the mask `BitMask(idx) = 1 << (idx & 0x1f)`, and `IsBitSet`
answers `false` past the storage.  `EnsureSize(idx)` grows the storage to the words that `idx + 1`
bits need and zeroes the new ones; `SetBit` calls it first.

The set operations go word by word.  `Union` and `UnionIfNotIn` grow the storage to the highest
set bit of the other operand and report whether a word changed, `Union` also when it grew.
`Intersect` zeroes the words past the shorter storage, `Subtract` stops at it, `Copy` copies the
words up to the highest set bit and zeroes the rest.  `SameBitsSet` and `IsSubsetOf` compare the
highest set bits first and then the words below them; `SameBitsSet` leaves out the word of the
highest bit when that bit is the lowest of its word.

Bit indices are `uint32_t`, here `Nat` values below `2 ^ 32`.  The model computes as the source
does: `storage_size_ * kWordBits` (`getBitSizeOf`), `idx + 1` and the rounding of `BitsToWords` in
`uint32_t`, and `GetHighestBitSet` counts down from the `int` `storage_size_ - 1` and returns the
`uint32_t` sum `31 - CLZ(value) + idx * kWordBits` as an `int`; where `Copy`, `Union` and the
comparisons pass that `int` on as a `uint32_t`, the model converts it (`u32I`).  All of this is
the plain arithmetic for a vector of at most `2 ^ 26` words; for a longer one the highest bit is
not an `int`.  Where `EnsureSize` would shrink the storage (`DCHECK_GT(new_size, storage_size_)`
fails, and the copy overruns the new storage), the model keeps it.  The allocator and
`expandable_` do not change what is stored (`EnsureSize` only `DCHECK`s that the vector may
grow), so they are left out.  `GetRawStorageWord` reads zero past the storage; the set operations
read only inside it, and `NumSetBits(end)` does under its `DCHECK_LE(end, storage_size_ *
kWordBits)`.
-/

namespace Art

/-- A `BitVector`: `storage_`, whose length is `storage_size_`. -/
structure BitVector where
  storage : List (BitVec 32)
  deriving DecidableEq, Repr

namespace BitVector

open WordBits Word32

/-- `kWordBits`. -/
def kWordBits : Nat := 32

/-- `BitsToWords(bits)`: `RoundUp(bits, kWordBits) / kWordBits` in `uint32_t`.  The rounding
`(bits + kWordBits - 1) & -kWordBits` clears only bits that the division drops. -/
def bitsToWords (bits : Nat) : Nat := u32 (bits + kWordBits - 1) / kWordBits

/-- `WordIndex(idx)`. -/
def wordIndex (idx : Nat) : Nat := idx >>> 5

/-- `BitMask(idx)`. -/
def bitMask (idx : Nat) : BitVec 32 := (1 : BitVec 32) <<< (idx &&& 0x1f)

variable (v : BitVector)

/-- `GetRawStorageWord(idx)`. -/
def getRawStorageWord (idx : Nat) : BitVec 32 := v.storage.getD idx 0

/-- `GetBitSizeOf()`: `storage_size_ * kWordBits`, a `uint32_t` product, which `IsBitSet`,
`SetBit`, `ClearBit` and `EnsureSize` compute in place. -/
def getBitSizeOf : Nat := u32 (v.storage.length * kWordBits)

/-- `IsBitSet(idx)`, with the static `IsBitSet(storage_, idx)` inlined. -/
def isBitSet (idx : Nat) : Bool :=
  decide (idx < v.getBitSizeOf) &&
    (v.getRawStorageWord (wordIndex idx) &&& bitMask idx) != 0

/-- `ClearAllBits()`. -/
def clearAllBits : BitVector := ⟨List.replicate v.storage.length 0⟩

/-- `EnsureSize(idx)`: the words `idx + 1` bits need, the new ones zero. -/
def ensureSize (idx : Nat) : BitVector :=
  if idx ≥ v.getBitSizeOf then
    let newSize := bitsToWords (u32 (idx + 1))
    ⟨v.storage ++ List.replicate (newSize - v.storage.length) 0⟩
  else v

/-- `SetBit(idx)`. -/
def setBit (idx : Nat) : BitVector :=
  let v := if idx ≥ v.getBitSizeOf then v.ensureSize idx else v
  ⟨v.storage.set (wordIndex idx) (v.getRawStorageWord (wordIndex idx) ||| bitMask idx)⟩

/-- `ClearBit(idx)`. -/
def clearBit (idx : Nat) : BitVector :=
  if idx < v.getBitSizeOf then
    ⟨v.storage.set (wordIndex idx) (v.getRawStorageWord (wordIndex idx) &&& ~~~bitMask idx)⟩
  else v

/-- The loop of `GetHighestBitSet()` over the words below `idx + 1`, from the top one down: the
`uint32_t` sum `31 - CLZ(value) + idx * kWordBits` is returned as an `int`. -/
def getHighestBitSetLoop : Nat → Int
  | 0 => -1
  | idx + 1 =>
    let value := v.getRawStorageWord idx
    if value ≠ 0 then toInt32 (u32 (31 - clz value + idx * kWordBits))
    else getHighestBitSetLoop idx

/-- `GetHighestBitSet()`: `-1` when no bit is set.  The loop starts at the `int` `max - 1`, for
the `unsigned` `max = storage_size_`; it is negative, and no word is read, when there are more
than `2 ^ 31` words. -/
def getHighestBitSet : Int :=
  if toInt32 (u32 (v.storage.length + 2 ^ 32 - 1)) < 0 then -1
  else v.getHighestBitSetLoop v.storage.length

/-- `Copy(src)`. -/
def copy (src : BitVector) : BitVector :=
  let highestBit := src.getHighestBitSet
  if highestBit = -1 then v.clearAllBits
  else
    -- `SetBit(highest_bit)` and `highest_bit / kWordBits` take the `int` as a `uint32_t`
    let v := v.setBit (u32I highestBit)
    let size := 1 + u32I highestBit / kWordBits
    -- `memcpy(storage_, src->GetRawStorage(), kWordBytes * size)`
    let storage := storeLoop (fun idx _ => src.getRawStorageWord idx) 0 size v.storage
    let left := storage.length - size
    -- `memset(storage_ + size, 0, kWordBytes * left)`
    ⟨if left > 0 then storeLoop (fun _ _ => 0) size left storage else storage⟩

/-- `Intersect(src)`. -/
def intersect (src : BitVector) : BitVector :=
  let srcStorageSize := src.storage.length
  let minSize := if v.storage.length < srcStorageSize then v.storage.length else srcStorageSize
  let storage := storeLoop (fun idx existing => existing &&& src.getRawStorageWord idx) 0 minSize
    v.storage
  ⟨storeLoop (fun _ _ => 0) minSize (storage.length - minSize) storage⟩

/-- `Union(src)`: the vector and whether it changed. -/
def union (src : BitVector) : BitVector × Bool :=
  let highestBit := src.getHighestBitSet
  if highestBit = -1 then (v, false)
  else
    let srcSize := bitsToWords (u32I (highestBit + 1))
    -- growing the storage sets `changed`
    let grown := if v.storage.length < srcSize then (v.ensureSize (u32I highestBit), true)
      else (v, false)
    let result := updateLoop (fun idx existing => existing ||| src.getRawStorageWord idx) 0 srcSize
      (grown.1.storage, grown.2)
    (⟨result.1⟩, result.2)

/-- `UnionIfNotIn(union_with, not_in)`: the vector and whether it changed. -/
def unionIfNotIn (unionWith notIn : BitVector) : BitVector × Bool :=
  let highestBit := unionWith.getHighestBitSet
  if highestBit = -1 then (v, false)
  else
    let unionWithSize := bitsToWords (u32I (highestBit + 1))
    -- growing the storage alone does not set `changed`
    let v := if v.storage.length < unionWithSize then v.ensureSize (u32I highestBit) else v
    let notInSize := notIn.storage.length
    let minSize := min notInSize unionWithSize
    let result := updateLoop (fun idx existing =>
      existing ||| (unionWith.getRawStorageWord idx &&& ~~~notIn.getRawStorageWord idx)) 0 minSize
      (v.storage, false)
    let result := updateLoop (fun idx existing => existing ||| unionWith.getRawStorageWord idx)
      minSize (unionWithSize - minSize) result
    (⟨result.1⟩, result.2)

/-- `Subtract(src)`. -/
def subtract (src : BitVector) : BitVector :=
  let srcSize := src.storage.length
  let minSize := if v.storage.length > srcSize then srcSize else v.storage.length
  ⟨storeLoop (fun idx existing => existing &&& ~~~src.getRawStorageWord idx) 0 minSize v.storage⟩

/-- `SameBitsSet(src)`. -/
def sameBitsSet (src : BitVector) : Bool :=
  let ourHighest := v.getHighestBitSet
  let srcHighest := src.getHighestBitSet
  if ourHighest ≠ srcHighest then false
  else if ourHighest ≤ 0 then true
  else
    -- `BitsToWords(our_highest)`, not `our_highest + 1`
    let ourHighestIndex := bitsToWords (u32I ourHighest)
    -- `memcmp` of `our_highest_index` words
    (List.range ourHighestIndex).all fun i => v.getRawStorageWord i == src.getRawStorageWord i

/-- `IsSubsetOf(other)`. -/
def isSubsetOf (other : BitVector) : Bool :=
  let thisHighest := v.getHighestBitSet
  let otherHighest := other.getHighestBitSet
  if thisHighest < 0 then true
  else if thisHighest > otherHighest then false
  else
    let thisHighestIndex := bitsToWords (u32I (thisHighest + 1))
    (List.range thisHighestIndex).all fun i =>
      (v.getRawStorageWord i ||| other.getRawStorageWord i) == other.getRawStorageWord i

/-- The static `NumSetBits(storage, end)`. -/
def numSetBitsStorage (storage : List (BitVec 32)) (end_ : Nat) : Nat :=
  let wordEnd := wordIndex end_
  let partialWordBits := end_ &&& 0x1f
  let count := (List.range wordEnd).foldl (fun count word => count + (storage.getD word 0).cpop.toNat) 0
  if partialWordBits ≠ 0 then
    count + (storage.getD wordEnd 0 &&& ~~~((0xffffffff : BitVec 32) <<< partialWordBits)).cpop.toNat
  else count

/-- `NumSetBits(end)`. -/
def numSetBits (end_ : Nat) : Nat := numSetBitsStorage v.storage end_

/-- `SetInitialBits(num_bits)`. -/
def setInitialBits (numBits : Nat) : BitVector :=
  if numBits = 0 then v.clearAllBits
  else
    let v := v.setBit (numBits - 1)
    let wordEnd := wordIndex numBits
    let storage := storeLoop (fun _ _ => BitVec.allOnes 32) 0 wordEnd v.storage
    let remNumBits := numBits &&& 0x1f
    -- the last, partial word and the index after it
    let last : List (BitVec 32) × Nat :=
      if remNumBits ≠ 0 then (storage.set wordEnd (((1 : BitVec 32) <<< remNumBits) - 1), wordEnd + 1)
      else (storage, wordEnd)
    ⟨storeLoop (fun _ _ => 0) last.2 (last.1.length - last.2) last.1⟩

end BitVector

end Art
