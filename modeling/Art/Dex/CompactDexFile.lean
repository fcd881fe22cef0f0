import Mathlib

/-!
# The code item header of a compact dex file (`CompactDexFile::CodeItem` in
`libdexfile/dex/compact_dex_file.h`)

`fields_` packs the low nibbles of `registers_size - ins_size`, `ins_size`, `outs_size` and
`tries_size`; `insns_count_and_flags_` holds the low 11 bits of the instruction count above five
flags, one for each field whose high part is kept in the preheader.  The preheader is a run of
code units just below the code item: `Create` writes it downwards from `out_preheader`, the
instruction count's high part first as two halves, then the high parts of the four sizes that are
not zero, and `DecodeFields` reads it downwards from the code item in the same order.

Memory is a map from addresses, in code units, to code units.  An address is an `Int`, so that the
steps of a pointer below the code item are plain subtractions.
-/

namespace Art

namespace CompactDexFile

/-- Code units by address. -/
abbrev CodeUnits := Int → BitVec 16

/-- The two header fields of a code item. -/
structure CodeItem where
  fields : BitVec 16
  insnsCountAndFlags : BitVec 16
  deriving DecidableEq, Repr

/-- What `DecodeFields` writes through its five pointers. -/
structure Fields where
  insnsCount : BitVec 32
  registersSize : BitVec 16
  insSize : BitVec 16
  outsSize : BitVec 16
  triesSize : BitVec 16
  deriving DecidableEq, Repr

namespace CodeItem

/-- The largest preheader, in code units. -/
def kMaxPreHeaderSize : Nat := 6

def kRegistersSizeShift : Nat := 12
def kInsSizeShift : Nat := 8
def kOutsSizeShift : Nat := 4
def kTriesSizeSizeShift : Nat := 0

def kBitPreHeaderRegistersSize : Nat := 0
def kBitPreHeaderInsSize : Nat := 1
def kBitPreHeaderOutsSize : Nat := 2
def kBitPreHeaderTriesSize : Nat := 3
def kBitPreHeaderInsnsSize : Nat := 4

def kFlagPreHeaderRegistersSize : BitVec 16 := 1 <<< kBitPreHeaderRegistersSize
def kFlagPreHeaderInsSize : BitVec 16 := 1 <<< kBitPreHeaderInsSize
def kFlagPreHeaderOutsSize : BitVec 16 := 1 <<< kBitPreHeaderOutsSize
def kFlagPreHeaderTriesSize : BitVec 16 := 1 <<< kBitPreHeaderTriesSize
def kFlagPreHeaderInsnsSize : BitVec 16 := 1 <<< kBitPreHeaderInsnsSize

def kInsnsSizeShift : Nat := 5
def kInsnsSizeBits : Nat := 16 - kInsnsSizeShift

def kFlagPreHeaderCombined : BitVec 16 :=
  kFlagPreHeaderRegistersSize ||| kFlagPreHeaderInsSize ||| kFlagPreHeaderOutsSize |||
    kFlagPreHeaderTriesSize ||| kFlagPreHeaderInsnsSize

/-- `--out_preheader; *out_preheader = value;` -/
def pushPreHeader (mem : CodeUnits) (ptr : Int) (value : BitVec 16) : CodeUnits × Int :=
  (Function.update mem (ptr - 1) value, ptr - 1)

/-- The lambda `preheader_encode(size, flag)` of `Create`, over `insns_count_and_flags_`, the
memory and `out_preheader`. -/
def preheaderEncode (size flag : BitVec 16) (s : BitVec 16 × CodeUnits × Int) :
    BitVec 16 × CodeUnits × Int :=
  if size ≠ 0 then
    let (mem, ptr) := pushPreHeader s.2.1 s.2.2 size
    (s.1 ||| flag, mem, ptr)
  else s

/-- The part of `Create` that writes the preheader, from the high parts of the five fields:
the instruction count's as two halves, then `preheader_encode` on each size, over
`insns_count_and_flags_`, the memory and `out_preheader`. -/
def encodePreHeader (registersSize insSize outsSize triesSize : BitVec 16)
    (insnsSizeInCodeUnits : BitVec 32) (s : BitVec 16 × CodeUnits × Int) :
    BitVec 16 × CodeUnits × Int :=
  let s :=
    if insnsSizeInCodeUnits ≠ 0 then
      let (mem, ptr) := pushPreHeader s.2.1 s.2.2 (insnsSizeInCodeUnits.setWidth 16)
      let (mem, ptr) := pushPreHeader mem ptr ((insnsSizeInCodeUnits >>> 16).setWidth 16)
      (s.1 ||| kFlagPreHeaderInsnsSize, mem, ptr)
    else s
  let s := preheaderEncode registersSize kFlagPreHeaderRegistersSize s
  let s := preheaderEncode insSize kFlagPreHeaderInsSize s
  let s := preheaderEncode outsSize kFlagPreHeaderOutsSize s
  preheaderEncode triesSize kFlagPreHeaderTriesSize s

/-- `Create(registers_size, ins_size, outs_size, tries_size, insns_size_in_code_units,
out_preheader)`: the code item's fields, the memory with the preheader written below
`out_preheader`, and the start of the preheader it returns. -/
def create (registersSize insSize outsSize triesSize : BitVec 16) (insnsSizeInCodeUnits : BitVec 32)
    (mem : CodeUnits) (outPreheader : Int) : CodeItem × CodeUnits × Int :=
  let registersSize := registersSize - insSize
  let fields := (registersSize &&& 0xF) <<< kRegistersSizeShift |||
    (insSize &&& 0xF) <<< kInsSizeShift ||| (outsSize &&& 0xF) <<< kOutsSizeShift |||
    (triesSize &&& 0xF) <<< kTriesSizeSizeShift
  let maskedCount := insnsSizeInCodeUnits &&& ((1 <<< kInsnsSizeBits) - 1)
  let insnsCountAndFlags : BitVec 16 := (maskedCount <<< kInsnsSizeShift).setWidth 16
  let s := encodePreHeader (registersSize &&& ~~~0xF) (insSize &&& ~~~0xF) (outsSize &&& ~~~0xF)
    (triesSize &&& ~~~0xF) (insnsSizeInCodeUnits - maskedCount)
    (insnsCountAndFlags, mem, outPreheader)
  (⟨fields, s.1⟩, s.2.1, s.2.2)

/-- `HasPreHeader(flag)`. -/
def hasPreHeader (item : CodeItem) (flag : BitVec 16) : Bool :=
  (item.insnsCountAndFlags &&& flag) != 0

/-- `HasAnyPreHeader(insns_count_and_flags)`. -/
def hasAnyPreHeader (insnsCountAndFlags : BitVec 16) : Bool :=
  (insnsCountAndFlags &&& kFlagPreHeaderCombined) != 0

/-- `if (HasPreHeader(flag)) { --preheader; *size += preheader[0]; }`: the size and the
pointer after. -/
def decodePreHeader (item : CodeItem) (mem : CodeUnits) (flag size : BitVec 16)
    (preheader : Int) : BitVec 16 × Int :=
  if item.hasPreHeader flag then (size + mem (preheader - 1), preheader - 1)
  else (size, preheader)

/-- The reads of `DecodeFields` from the preheader, downwards from the code item at `addr`. -/
def decodePreHeaders (kDecodeOnlyInstructionCount : Bool) (item : CodeItem) (mem : CodeUnits)
    (addr : Int) (out : Fields) : Fields :=
  -- `GetPreHeader()` is the code item itself
  let preheader := addr
  let (insnsCount, preheader) :=
    if item.hasPreHeader kFlagPreHeaderInsnsSize then
      (out.insnsCount + (mem (preheader - 1)).setWidth 32 +
        (mem (preheader - 2)).setWidth 32 <<< 16, preheader - 2)
    else (out.insnsCount, preheader)
  let out := { out with insnsCount := insnsCount }
  if !kDecodeOnlyInstructionCount then
    let (registersSize, preheader) :=
      item.decodePreHeader mem kFlagPreHeaderRegistersSize out.registersSize preheader
    let (insSize, preheader) := item.decodePreHeader mem kFlagPreHeaderInsSize out.insSize preheader
    let (outsSize, preheader) :=
      item.decodePreHeader mem kFlagPreHeaderOutsSize out.outsSize preheader
    let (triesSize, _) := item.decodePreHeader mem kFlagPreHeaderTriesSize out.triesSize preheader
    { out with registersSize, insSize, outsSize, triesSize }
  else out

/-- `DecodeFields<kDecodeOnlyInstructionCount>` on the code item at `addr`, where its preheader
ends: what it writes through its pointers, `out` holding what they pointed to before. -/
def decodeFields (kDecodeOnlyInstructionCount : Bool) (item : CodeItem) (mem : CodeUnits)
    (addr : Int) (out : Fields) : Fields :=
  let out := { out with insnsCount := (item.insnsCountAndFlags >>> kInsnsSizeShift).setWidth 32 }
  let out :=
    if !kDecodeOnlyInstructionCount then
      { out with
        registersSize := (item.fields >>> kRegistersSizeShift) &&& 0xF
        insSize := (item.fields >>> kInsSizeShift) &&& 0xF
        outsSize := (item.fields >>> kOutsSizeShift) &&& 0xF
        triesSize := (item.fields >>> kTriesSizeSizeShift) &&& 0xF }
    else out
  let out :=
    if hasAnyPreHeader item.insnsCountAndFlags then
      item.decodePreHeaders kDecodeOnlyInstructionCount mem addr out
    else out
  if !kDecodeOnlyInstructionCount then
    { out with registersSize := out.registersSize + out.insSize }
  else out

end CodeItem

end CompactDexFile

end Art
