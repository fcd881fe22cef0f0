import Art.Base.BitTable
import Art.Lib.Word

/-!
# `CodeInfo` and its deduplicating writer (`runtime/stack_map.h`, `stack_map.cc`)

A `CodeInfo` is seven interleaved varints (flags, code size, packed frame size, the two spill
masks, the dex register count and `bit_table_flags_`) followed by eight bit tables.  Bit `i` of
`bit_table_flags_` says table `i` is present, bit `8 + i` that it was replaced by the varint
distance back, in bits, to an identical copy.

`CodeInfo::Deduper` copies code infos one after the other into one output, replacing a table
of more than 32 bits that it has already written by such a back-reference.  Its map goes from
the bits of a table to where it wrote them; it is keyed by content, so two tables with the same
bits share one entry.

The reader resolves a back-reference as `reader.NumberOfReadBits() - reader.ReadVarint()`; C++
leaves the order of the two calls open, and the model reads the count first, which is the order
the writer assumes.
-/

namespace Art

open BitList Word32

def kNumHeaders : Nat := 7

def kNumBitTables : Nat := 8

/-- The column counts of the tables in `ForEachBitTableField` order: stack maps, register masks,
stack masks, inline infos, method infos, dex register masks, dex register maps, dex register
catalogue. -/
def bitTableColumns : List (Fin 16) := [8, 2, 1, 6, 1, 1, 1, 2]

def hasBitTable (bitTableFlags i : Nat) : Bool := bitTableFlags.testBit i

def isBitTableDeduped (bitTableFlags i : Nat) : Bool := bitTableFlags.testBit (kNumBitTables + i)

def setBitTableDeduped (bitTableFlags i : Nat) : Nat :=
  bitTableFlags ||| 1 <<< (kNumBitTables + i)

structure CodeInfo where
  flags : Nat
  codeSize : Nat
  packedFrameSize : Nat
  coreSpillMask : Nat
  fpSpillMask : Nat
  numberOfDexRegisters : Nat
  bitTableFlags : Nat
  tables : List BitTable
  deriving DecidableEq, Repr

namespace CodeInfo

/-- One table of the decoding constructor's loop: the table, the region of bits it was decoded
from (which the constructor hands to its callback), and the reader after it. -/
def decodeBitTable (data : List Bool) (start bitTableFlags i : Nat) (numColumns : Fin 16)
    (reader : BitMemoryReader) : BitTable × Option (List Bool) × BitMemoryReader :=
  if hasBitTable bitTableFlags i then
    if isBitTableDeduped bitTableFlags i then
      let readBefore := reader.numberOfReadBits
      let (distance, reader) := reader.readVarint
      let bitOffset : Int := (readBefore : Int) - distance
      -- `BitMemoryReader reader2(reader.data(), bit_offset)`: the offset is negative
      let reader2 := BitMemoryReader.create data (start + bitOffset).toNat
      let (table, reader2) := BitTable.decode numColumns reader2
      (table, some reader2.getReadRegion, reader)
    else
      let bitOffset := reader.numberOfReadBits
      let (table, reader) := BitTable.decode numColumns reader
      (table, some (slice data (reader.start + bitOffset) (reader.numberOfReadBits - bitOffset)),
        reader)
  else (BitTable.empty numColumns, none, reader)

/-- The table loop of the decoding constructor, from table `i` on. -/
def decodeBitTables (data : List Bool) (start bitTableFlags : Nat) :
    Nat → List (Fin 16) → BitMemoryReader →
      List BitTable × List (Option (List Bool)) × BitMemoryReader
  | _, [], reader => ([], [], reader)
  | i, numColumns :: rest, reader =>
    let (table, region, reader) := decodeBitTable data start bitTableFlags i numColumns reader
    let (tables, regions, reader) := decodeBitTables data start bitTableFlags (i + 1) rest reader
    (table :: tables, region :: regions, reader)

/-- `CodeInfo(data, num_read_bits, callback)` on the code info at bit `start` of `data`: the code
info, the region of each present table, and the number of bits read. -/
def decode (data : List Bool) (start : Nat) : CodeInfo × List (Option (List Bool)) × Nat :=
  let reader := BitMemoryReader.create data start
  let (header, reader) := reader.readInterleavedVarints kNumHeaders
  let (tables, regions, reader) :=
    decodeBitTables data start (header.getD 6 0) 0 bitTableColumns reader
  (⟨header.getD 0 0, header.getD 1 0, header.getD 2 0, header.getD 3 0, header.getD 4 0,
    header.getD 5 0, header.getD 6 0, tables⟩, regions, reader.numberOfReadBits)

def header (c : CodeInfo) : List Nat :=
  [c.flags, c.codeSize, c.packedFrameSize, c.coreSpillMask, c.fpSpillMask,
    c.numberOfDexRegisters, c.bitTableFlags]

end CodeInfo

/-- `dedupe_map_`: table bits to the bit offset of their copy in the output, `0` for none yet. -/
abbrev DedupeMap := List (List Bool × Nat)

namespace DedupeMap

def get (m : DedupeMap) (region : List Bool) : Nat :=
  ((m.find? fun e => e.1 == region).map (·.2)).getD 0

/-- `emplace(region, 0)`: a new entry unless one for these bits exists. -/
def emplace (m : DedupeMap) (region : List Bool) : DedupeMap :=
  if (m.find? fun e => e.1 == region).isSome then m else m ++ [(region, 0)]

def set (m : DedupeMap) (region : List Bool) (bitOffset : Nat) : DedupeMap :=
  m.map fun e => if e.1 == region then (e.1, bitOffset) else e

end DedupeMap

/-- Tables of at most this many bits are not worth a back-reference. -/
def kMinDedupSize : Nat := 32

structure Deduper where
  writer : BitMemoryWriter
  dedupeMap : DedupeMap

namespace Deduper

/-- `Deduper(output)` on an empty vector. -/
def create : Deduper := ⟨⟨[]⟩, []⟩

/-- The decoding callback of `Dedupe`: enter each present table in the map and mark it deduped
when its bits were written before and it is large. -/
def markDeduped : DedupeMap → Nat → Nat → List (Option (List Bool)) → DedupeMap × Nat
  | m, bitTableFlags, _, [] => (m, bitTableFlags)
  | m, bitTableFlags, i, none :: rest => markDeduped m bitTableFlags (i + 1) rest
  | m, bitTableFlags, i, some region :: rest =>
    let m := m.emplace region
    let bitTableFlags :=
      if m.get region ≠ 0 ∧ region.length > kMinDedupSize then setBitTableDeduped bitTableFlags i
      else bitTableFlags
    markDeduped m bitTableFlags (i + 1) rest

/-- One table of `Dedupe`'s loop: a back-reference for a deduped table, the table's bits
otherwise, with their offset recorded. -/
def writeBitTable (bitTableFlags i : Nat) (region : Option (List Bool)) (writer : BitMemoryWriter)
    (m : DedupeMap) : BitMemoryWriter × DedupeMap :=
  if hasBitTable bitTableFlags i then
    let region := region.getD []
    if isBitTableDeduped bitTableFlags i then
      (writer.writeVarint (u32 (writer.numberOfWrittenBits - m.get region)), m)
    else
      let m := m.set region (u32 writer.numberOfWrittenBits)
      (writer.writeRegion region, m)
  else (writer, m)

/-- The table loop of `Dedupe`, from table `i` on. -/
def writeBitTables (bitTableFlags : Nat) :
    Nat → List (Option (List Bool)) → BitMemoryWriter → DedupeMap → BitMemoryWriter × DedupeMap
  | _, [], writer, m => (writer, m)
  | i, region :: rest, writer, m =>
    let (writer, m) := writeBitTable bitTableFlags i region writer m
    writeBitTables bitTableFlags (i + 1) rest writer m

/-- `Dedupe(code_info_data)`: the deduper after the copy, and the byte offset of the copy. -/
def dedupe (d : Deduper) (codeInfoData : List Bool) : Deduper × Nat :=
  let writer := d.writer.byteAlign
  let dedupedOffset := writer.numberOfWrittenBits / kBitsPerByte
  -- `CodeInfo code_info(code_info_data, nullptr, callback)`; the callback marks a table only
  -- after the constructor has decoded it, so marking after the decode is the same
  let decoded := CodeInfo.decode codeInfoData 0
  let codeInfo := decoded.1
  let regions := decoded.2.1
  let marked := markDeduped d.dedupeMap codeInfo.bitTableFlags 0 regions
  let writer := writer.writeInterleavedVarints
    [codeInfo.flags, codeInfo.codeSize, codeInfo.packedFrameSize, codeInfo.coreSpillMask,
      codeInfo.fpSpillMask, codeInfo.numberOfDexRegisters, marked.2]
  let written := writeBitTables marked.2 0 regions writer marked.1
  (⟨written.1, written.2⟩, dedupedOffset)

/-- A caller's run of `Dedupe` over code infos in order: the deduper and the offsets returned. -/
def dedupeAll (d : Deduper) : List (List Bool) → Deduper × List Nat
  | [] => (d, [])
  | c :: cs =>
    let (d, offset) := d.dedupe c
    let (d, offsets) := dedupeAll d cs
    (d, offset :: offsets)

end Deduper

end Art
