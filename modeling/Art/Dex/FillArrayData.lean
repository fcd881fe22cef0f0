import Art.Dex.Instruction

/-!
# Fill-array-data: the verifier's check and the two consumers of a payload

A fill-array-data instruction (`31t`) at dex pc `p` names a payload at `p + offset`: the units
`kArrayDataSignature, element_width, element_count (two units), data...`.
`MethodVerifier::CheckArrayData` checks that the payload starts at a marked instruction and that
its table ends inside the code item; the interpreter's `FillArrayData` copies the data into an
array, and the optimizing compiler's `HInstructionBuilder::BuildFillArrayData` turns it into one
array store per element.
-/

namespace Art

open Word32

/-- A code item's instruction array: 16-bit code units, at most `2^32 - 1` of them
(`insns_size_in_code_units` is a `uint32_t`). -/
structure CodeItem where
  insns : List Nat
  units_lt : ∀ u ∈ insns, u < 2 ^ 16
  length_lt : insns.length < 2 ^ 32

/-- `insns[1] | (static_cast<int32_t>(insns[2]) << 16)`: the signed distance, in code units,
from the fill-array-data at `curOffset` to its payload. -/
def arrayDataOffset (insns : List Nat) (curOffset : Nat) : Int :=
  toInt32 (fetch32 insns (curOffset + 1))

/-- The unit index of the payload the pointer `insns + array_data_offset` addresses. -/
def arrayDataStart (insns : List Nat) (curOffset : Nat) : Nat :=
  (curOffset + arrayDataOffset insns curOffset).toNat

/-- `element_width` of the payload at `start`. -/
def payloadWidth (insns : List Nat) (start : Nat) : Nat := fetch16 insns (start + 1)

/-- `element_count` of the payload at `start`. -/
def payloadCount (insns : List Nat) (start : Nat) : Nat := fetch32 insns (start + 2)

/-- `MethodVerifier::CheckArrayData` for the fill-array-data at `curOffset`, given the dex pcs
`ComputeWidthsAndCountOps` marked as opcodes.  The table is read through the pointer
`insns + array_data_offset`, while the range checks and the opcode flag use `uint32_t` sums.  The
code item's `insns` is 4-byte aligned, so the alignment test on the table's address is a test on
the parity of its unit index. -/
def checkArrayData (insns : List Nat) (opcodes : List Nat) (curOffset : Nat) : Bool :=
  let insnCount := insns.length
  let offset := arrayDataOffset insns curOffset
  if toInt32 curOffset + offset < 0 ∨ insnCount ≤ u32I (curOffset + offset + 2) then false
  else
    let arrayData := arrayDataStart insns curOffset
    if arrayData % 2 ≠ 0 then false
    else if u32I (curOffset + offset) ∉ opcodes then false
    else
      let tableSize := arrayDataTableSize (payloadWidth insns arrayData) (payloadCount insns arrayData)
      if insnCount < u32I (curOffset + offset + tableSize) then false else true

/-- `Instruction::FILL_ARRAY_DATA`. -/
def kFillArrayData : Nat := 0x26

/-- The structural pass the verifier runs before type checking, as far as fill-array-data goes:
`ComputeWidthsAndCountOps`, then `CheckArrayData` for each fill-array-data it reached.  The
result is the list of marked dex pcs. -/
def verifyArrayData (insns : List Nat) : Option (List Nat) :=
  match computeWidthsAndCountOps insns with
  | none => none
  | some opcodes =>
    if opcodes.all fun pc => opcodeAt insns pc ≠ kFillArrayData ∨ checkArrayData insns opcodes pc
    then some opcodes else none

/-- What `FillArrayData` does with an array (`none` for `null`, else its length) and a payload. -/
inductive FillArrayDataResult
  | nullPointerException
  | arrayIndexOutOfBoundsException
  /-- `memcpy` of this many bytes to the start of the array's data. -/
  | copied (sizeInBytes : Nat)
  deriving DecidableEq, Repr

/-- `FillArrayData(obj, payload)` in `entrypoint_utils.cc`. -/
def fillArrayData (array : Option Nat) (elementWidth elementCount : Nat) : FillArrayDataResult :=
  match array with
  | none => .nullPointerException
  | some length =>
    if (length : Int) < toInt32 elementCount then .arrayIndexOutOfBoundsException
    else .copied (u32 (elementCount * elementWidth))

/-- The array stores `HInstructionBuilder::BuildFillArrayData` appends for the fill-array-data at
`dexPc`, each as the element index and the byte offset in the code item its value is read from;
`none` is the `LOG(FATAL)` on an unknown element width.  The payload is at
`int32_t payload_offset = instruction.VRegB_31t() + dex_pc`. -/
def buildFillArrayData (insns : List Nat) (dexPc : Nat) : Option (List (Nat × Nat)) :=
  let payloadOffset := (toInt32 (u32I (arrayDataOffset insns dexPc + dexPc))).toNat
  let width := payloadWidth insns payloadOffset
  let count := payloadCount insns payloadOffset
  if count = 0 then some []
  else if width = 1 ∨ width = 2 ∨ width = 4 ∨ width = 8 then
    some ((List.range count).map fun i => (i, 2 * (payloadOffset + 4) + i * width))
  else none

end Art
