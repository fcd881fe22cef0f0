import Art.Base.BitMemory

/-!
# Bit tables (`libartbase/base/bit_table.h`)

A `BitTable` is a header of interleaved varints, the row count and then the bit width of each
column, followed by the rows, each value in its column's width.  Values are stored minus
`kValueBias = -1` in `uint32_t`, so that `kNoValue = -1` takes no bits.

A decoded table keeps its row count, its column widths and the bits of its rows; the accessors
read those bits.  The source keeps the column offsets, the running sums of the widths, in
`uint16_t` (`dchecked_integral_cast`, a `DCHECK` and then a cast): the model sums the widths and
narrows the same way, which is what a build without `DCHECK`s computes.  A cell's bit offset,
`row * NumRowBits() + column_offset_[column]`, is computed in `uint32_t`.  `BitTableBuilder` and
`BitmapTableBuilder` collect the rows of the two kinds of table the stack-map stream builds,
deduplicating them, and write them out.
-/

namespace Art

open BitList

/-- `kNoValue`, the `uint32_t` `-1`. -/
def kNoValue : Nat := 2 ^ 32 - 1

/-- A `BitTableBase` after `Decode`. -/
structure BitTable where
  numRows : Nat
  columnBits : List Nat
  tableData : List Bool
  deriving DecidableEq, Repr

namespace BitTable

/-- A default-constructed table of `numColumns` columns, which a `CodeInfo` holds for an absent
table. -/
def empty (numColumns : Nat) : BitTable := ⟨0, List.replicate numColumns 0, []⟩

/-- `Decode`: the header, then the region of `num_rows_ * NumRowBits()` bits, `NumRowBits()` being
the last column offset, in `uint16_t`.  The header is read by `ReadInterleavedVarints<1 +
kNumColumns>`, whose `static_assert(N * kVarintBits <= 64)` leaves a `BitTableBase` at most 15
columns: the column count is a `Fin 16`. -/
def decode (numColumns : Fin 16) (reader : BitMemoryReader) : BitTable × BitMemoryReader :=
  let (header, reader) := reader.readInterleavedVarints (1 + (numColumns : Nat))
  let numRows := header.headD 0
  let columnBits := header.drop 1
  let (tableData, reader) := reader.readRegion (numRows * (columnBits.sum % 2 ^ 16))
  (⟨numRows, columnBits, tableData⟩, reader)

/-- `column_offset_[column]`: the widths of the columns before it, summed in `uint16_t`. -/
def columnOffset (t : BitTable) (column : Nat) : Nat := (t.columnBits.take column).sum % 2 ^ 16

/-- `column_offset_[kNumColumns]`. -/
def numRowBits (t : BitTable) : Nat := t.columnOffset t.columnBits.length

/-- `column_offset_[column + 1] - column_offset_[column]`, an `int` returned as `uint32_t`. -/
def numColumnBits (t : BitTable) (column : Nat) : Nat :=
  (t.columnOffset (column + 1) + 2 ^ 32 - t.columnOffset column) % 2 ^ 32

/-- `GetBitMemoryRegion(row, column)`, at the bit offset computed in `uint32_t`. -/
def getBitMemoryRegion (t : BitTable) (row column : Nat) : List Bool :=
  slice t.tableData ((row * t.numRowBits + t.columnOffset column) % 2 ^ 32) (t.numColumnBits column)

/-- `Get(row, column)`: the stored bits plus `kValueBias`, in `uint32_t`. -/
def get (t : BitTable) (row column : Nat) : Nat :=
  (toNat (t.getBitMemoryRegion row column) + kNoValue) % 2 ^ 32

/-- `Equals`: the row counts, the first `kNumColumns` column offsets and the table bits. -/
def equals (numColumns : Nat) (a b : BitTable) : Bool :=
  a.numRows == b.numRows &&
    (List.range numColumns).all (fun c => a.columnOffset c == b.columnOffset c) &&
    a.tableData == b.tableData

end BitTable

/-- A value as a `BitTableBuilder` stores it: `value - kValueBias` in `uint32_t`. -/
def biasedValue (value : Nat) : Nat := (value + 1) % 2 ^ 32

/-- `BitTableBuilderBase::Measure`: the bits the largest stored value of each column needs. -/
def measureColumns (numColumns : Nat) (rows : List (List Nat)) : List Nat :=
  (List.range numColumns).map fun c =>
    minimumBitsToStore (rows.foldl (fun acc row => acc ||| biasedValue (row.getD c 0)) 0)

/-- `BitTableBuilderBase::Encode`: the header, then every value of every row. -/
def encodeBitTable (numColumns : Nat) (rows : List (List Nat)) (out : BitMemoryWriter) :
    BitMemoryWriter :=
  let columnBits := measureColumns numColumns rows
  let out := out.writeInterleavedVarints (rows.length :: columnBits)
  rows.foldl (fun out row =>
    (List.range numColumns).foldl (fun out c =>
      out.writeBits (biasedValue (row.getD c 0)) (columnBits.getD c 0)) out) out

/-- `BitmapTableBuilder::Encode`: one column of `maxNumBits` bits; each row is a bitmap cut or
padded with zeros to that width. -/
def encodeBitmapTable (maxNumBits : Nat) (rows : List (List Bool)) (out : BitMemoryWriter) :
    BitMemoryWriter :=
  let out := out.writeInterleavedVarints [rows.length, maxNumBits]
  rows.foldl (fun out row => out.writeRegion (slice row 0 maxNumBits)) out

/-- `FNVHash`: 32-bit FNV-1a over the bytes. -/
def fnvHash (bytes : List Nat) : Nat :=
  bytes.foldl (fun hash value => ((hash ^^^ value) * 16777619) % 2 ^ 32) 2166136261

/-- The bytes of a `BitTableBuilderBase::Entry`, its `uint32_t` columns little endian. -/
def entryBytes (entry : List Nat) : List Nat :=
  entry.flatMap fun value => [value % 2 ^ 8, value / 2 ^ 8 % 2 ^ 8, value / 2 ^ 16 % 2 ^ 8,
    value / 2 ^ 24 % 2 ^ 8]

/-- The bytes of a region of whole bytes. -/
def regionBytes (region : List Bool) : List Nat :=
  (List.range (region.length / kBitsPerByte)).map fun k =>
    toNat (slice region (k * kBitsPerByte) kBitsPerByte)

/-- `BitTableBuilderBase<kNumColumns>`: the rows, and `dedup_`, the hash of each run `Dedup`
added with the index of its first row. -/
structure BitTableBuilder where
  rows : List (List Nat)
  dedupMap : List (Nat × Nat)
  deriving DecidableEq, Repr

namespace BitTableBuilder

def empty : BitTableBuilder := ⟨[], []⟩

def size (b : BitTableBuilder) : Nat := b.rows.length

/-- `Add`: append a row without entering it in the dedup map. -/
def add (b : BitTableBuilder) (value : List Nat) : BitTableBuilder :=
  { b with rows := b.rows ++ [value] }

/-- `Dedup(values, count)`: the index of the first candidate of `dedup_.equal_range(hash)` whose
rows are the values byte for byte, or of the values, appended.  The model takes the candidates in
the order they were added; the multimap's order is unspecified, and nothing below depends on it. -/
def dedup (b : BitTableBuilder) (values : List (List Nat)) : Nat × BitTableBuilder :=
  let hash := fnvHash (values.flatMap entryBytes)
  match (b.dedupMap.filter (·.1 == hash)).find? (fun e =>
      decide (values.length ≤ b.size - e.2) &&
        ((b.rows.drop e.2).take values.length).map entryBytes == values.map entryBytes) with
  | some e => (e.2, b)
  | none => (b.size, ⟨b.rows ++ values, b.dedupMap ++ [(hash, b.size)]⟩)

/-- `Encode`: the header, then every value of every row. -/
def encode (numColumns : Nat) (b : BitTableBuilder) (out : BitMemoryWriter) : BitMemoryWriter :=
  encodeBitTable numColumns b.rows out

end BitTableBuilder

/-- `BitVector::GetNumberOfBits`: one past the highest bit set, `0` when none is. -/
def numberOfBits : List Bool → Nat
  | [] => 0
  | b :: bs => if numberOfBits bs = 0 then (if b then 1 else 0) else numberOfBits bs + 1

/-- `BitmapTableBuilder`: each row is the whole bytes of a bitmap, `dedup_` as above, and the
widest bitmap's bit count. -/
structure BitmapTableBuilder where
  rows : List (List Bool)
  dedupMap : List (Nat × Nat)
  maxNumBits : Nat
  deriving DecidableEq, Repr

namespace BitmapTableBuilder

def empty : BitmapTableBuilder := ⟨[], [], 0⟩

def size (b : BitmapTableBuilder) : Nat := b.rows.length

/-- `Dedup(bitmap, num_bits)`: the row of the first candidate of `dedup_.equal_range(hash)` with
the same content (`ContentEquals`: the same size and bytes), or a new row holding the bytes of
this bitmap. -/
def dedup (b : BitmapTableBuilder) (bitmap : List Bool) (numBits : Nat) :
    Nat × BitmapTableBuilder :=
  let region := slice bitmap 0 (bitsToBytesRoundUp numBits * kBitsPerByte)
  let hash := fnvHash (regionBytes region)
  match (b.dedupMap.filter (·.1 == hash)).find? (fun e => b.rows.getD e.2 [] == region) with
  | some e => (e.2, b)
  | none => (b.size, ⟨b.rows ++ [region], b.dedupMap ++ [(hash, b.size)], max b.maxNumBits numBits⟩)

def encode (b : BitmapTableBuilder) (out : BitMemoryWriter) : BitMemoryWriter :=
  encodeBitmapTable b.maxNumBits b.rows out

end BitmapTableBuilder

end Art
