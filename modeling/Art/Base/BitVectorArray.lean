import Art.Base.BitVector

/-!
# Arrays of bit vectors (`BaseBitVectorArray` in `libartbase/base/bit_vector.h`, `.cc`)

A `BaseBitVectorArray` lays `num_rows_` rows of `num_columns_` bits out one after the other in one
`BitVector`, bit `(row, col)` at `row * num_columns_ + col`.  `Resize` rounds the columns up to a
multiple of `kWordBits`, so that every row starts on a word, and grows the storage to the last
bit.  `UnionRows(dest, other)` or-s the words of row `other` into those of row `dest`, one
`uint32_t` at a time through raw pointers into the storage.

`SetBit` and `IsBitSet` compute the bit `row * num_columns_ + col` in `size_t` and pass it to the
`uint32_t` parameter of the `BitVector`'s, which keeps it modulo `2 ^ 32`; so does `Resize`
with its last bit `num_rows_ * num_columns_ - 1`, which is `2 ^ 32 - 1` for an empty array.
-/

namespace Art

namespace BitVector

/-- `BitVector(start_bits, expandable, allocator)`: `BitsToWords(start_bits)` words, cleared. -/
def ofStartBits (startBits : Nat) : BitVector := ⟨List.replicate (bitsToWords startBits) 0⟩

/-- `Indexes()`: the set bits below `BitSize()`, which is `storage_size_ * kWordBits` in
`uint32_t`, in increasing order. -/
def indexes (v : BitVector) : List Nat :=
  (List.range v.getBitSizeOf).filter v.isBitSet

end BitVector

/-- A `BaseBitVectorArray` with its `BitVector`. -/
structure BitVectorArray where
  data : BitVector
  numColumns : Nat
  numRows : Nat
  deriving DecidableEq, Repr

namespace BitVectorArray

open BitVector Word32

/-- `ArenaBitVectorArray(allocator, 0, 0, expandable)`: no row, an empty vector. -/
def empty : BitVectorArray := ⟨⟨[]⟩, 0, 0⟩

/-- `RoundUp(x, n)`. -/
def roundUp (x n : Nat) : Nat := (x + n - 1) / n * n

/-- `Resize(rows, cols, clear = false)`. -/
def resize (a : BitVectorArray) (rows cols : Nat) : BitVectorArray :=
  let cols := roundUp cols kWordBits
  -- `num_rows_ * num_columns_ - 1` in `size_t`, passed as a `uint32_t`
  let last := u32 (rows * cols + 2 ^ 64 - 1)
  ⟨(a.data.setBit last).clearBit last, cols, rows⟩

/-- `SetBit(row, col)`. -/
def setBit (a : BitVectorArray) (row col : Nat) : BitVectorArray :=
  { a with data := a.data.setBit (u32 (row * a.numColumns + col)) }

/-- `IsBitSet(row, col)`. -/
def isBitSet (a : BitVectorArray) (row col : Nat) : Bool :=
  a.data.isBitSet (u32 (row * a.numColumns + col))

/-- `UnionRows(dest_row, other)`: `block_words` words from those of `dest_row` and `other`. -/
def unionRows (a : BitVectorArray) (destRow other : Nat) : BitVectorArray :=
  let blockWords := a.numColumns / kWordBits
  let dest := destRow * a.numColumns / kWordBits
  let source := other * a.numColumns / kWordBits
  { a with data := ⟨(List.range blockWords).foldl (fun storage i =>
      storage.set (dest + i) (storage.getD (dest + i) 0 ||| storage.getD (source + i) 0))
      a.data.storage⟩ }

end BitVectorArray

end Art
