import Art.Lib.PartitionPoint
import Art.Runtime.CodeInfo

/-!
# Reading stack maps (`runtime/stack_map.h`, `stack_map.cc`, `dex_register_location.h`)

A stack map is a row of the first table of a decoded `CodeInfo`; its columns are values or indices
into the other tables.  Dex register maps are delta-compressed: a stack map stores only the
registers that changed since the last store, so `DecodeDexRegisterMap` scans back from the stack
map for the latest store of each register.  The registers of inlined frames follow those of the
method, and each inline info row holds the count of all registers up to its frame.

A row past the end of a table is not read by the code on the inputs it is given; the model stops
the inline-info scan at the end of the table.

`GetStackMapForNativePcOffset` finds a stack map by its native pc with `std::partition_point`
over the rows, whose predicate is only a partition because catch stack maps come last, and then
scans forward over the rows at that pc for one of kind Default or OSR.
-/

namespace Art

open BitList Word32

/-- `DexRegisterLocation`: the kind, an enumeration over `int32_t`, and the value. -/
structure DexRegisterLocation where
  kind : Int
  value : Int
  deriving DecidableEq, Repr

namespace DexRegisterLocation

def kInvalid : Int := -2
def kNone : Int := -1
def kInStack : Int := 0
def kConstant : Int := 1
def kInRegister : Int := 2
def kInRegisterHigh : Int := 3
def kInFpuRegister : Int := 4
def kInFpuRegisterHigh : Int := 5

def none : DexRegisterLocation := ⟨kNone, 0⟩

def invalid : DexRegisterLocation := ⟨kInvalid, 0⟩

def isLive (l : DexRegisterLocation) : Bool := l.kind != kNone

end DexRegisterLocation

/-- The bytes of a stack slot. -/
def kFrameSlotSize : Nat := 4

namespace DexRegisterInfo

def kKind : Nat := 0
def kPackedValue : Nat := 1

/-- `PackValue`: the value in `uint32_t`, stack offsets in slots. -/
def packValue (kind value : Int) : Nat :=
  let packedValue := u32I value
  if kind = DexRegisterLocation.kInStack then packedValue / kFrameSlotSize else packedValue

def unpackValue (kind : Int) (packedValue : Nat) : Nat :=
  if kind = DexRegisterLocation.kInStack then u32 (packedValue * kFrameSlotSize) else packedValue

/-- `GetLocation` of a row of the catalogue. -/
def getLocation (t : BitTable) (row : Nat) : DexRegisterLocation :=
  let kind := toInt32 (t.get row kKind)
  ⟨kind, toInt32 (unpackValue kind (t.get row kPackedValue))⟩

end DexRegisterInfo

/-- `StackMap::Kind`. -/
inductive StackMapKind where
  | default | catch | osr | debug
  deriving DecidableEq, Repr

/-- The enumerator as a stack map stores it, `static_cast<uint32_t>`. -/
def StackMapKind.toUInt32 : StackMapKind → Nat
  | .default => 2 ^ 32 - 1
  | .catch => 0
  | .osr => 1
  | .debug => 2

/-- `InstructionSet`, without `kNone`. -/
inductive InstructionSet where
  | arm | arm64 | thumb2 | x86 | x86_64
  deriving DecidableEq, Repr

def getInstructionSetInstructionAlignment : InstructionSet → Nat
  | .arm => 2
  | .thumb2 => 2
  | .arm64 => 4
  | .x86 => 1
  | .x86_64 => 1

namespace StackMap

def kKind : Nat := 0
def kPackedNativePc : Nat := 1
def kDexPc : Nat := 2
def kRegisterMaskIndex : Nat := 3
def kStackMaskIndex : Nat := 4
def kInlineInfoIndex : Nat := 5
def kDexRegisterMaskIndex : Nat := 6
def kDexRegisterMapIndex : Nat := 7

def packNativePc (nativePc : Nat) (isa : InstructionSet) : Nat :=
  nativePc / getInstructionSetInstructionAlignment isa

def unpackNativePc (packedNativePc : Nat) (isa : InstructionSet) : Nat :=
  u32 (packedNativePc * getInstructionSetInstructionAlignment isa)

end StackMap

namespace InlineInfo

def kIsLast : Nat := 0
def kDexPc : Nat := 1
def kMethodInfoIndex : Nat := 2
def kArtMethodHi : Nat := 3
def kArtMethodLo : Nat := 4
def kNumberOfDexRegisters : Nat := 5

def kLast : Nat := 2 ^ 32 - 1
def kMore : Nat := 0

end InlineInfo

namespace RegisterMask

def kValue : Nat := 0
def kShift : Nat := 1

end RegisterMask

/-- `PopCount(0, n)` of a bitmap: the set bits among the first `n`. -/
def popCount (bits : List Bool) (n : Nat) : Nat := ((bits.take n).filter id).length

namespace CodeInfo

/-- Table `i`, in `ForEachBitTableField` order. -/
def table (c : CodeInfo) (i : Nat) : BitTable :=
  c.tables.getD i (BitTable.empty ((bitTableColumns.map Fin.val).getD i 0))

def stackMaps (c : CodeInfo) : BitTable := c.table 0
def registerMasks (c : CodeInfo) : BitTable := c.table 1
def stackMasks (c : CodeInfo) : BitTable := c.table 2
def inlineInfos (c : CodeInfo) : BitTable := c.table 3
def methodInfos (c : CodeInfo) : BitTable := c.table 4
def dexRegisterMasks (c : CodeInfo) : BitTable := c.table 5
def dexRegisterMaps (c : CodeInfo) : BitTable := c.table 6
def dexRegisterCatalog (c : CodeInfo) : BitTable := c.table 7

def getNumberOfStackMaps (c : CodeInfo) : Nat := c.stackMaps.numRows

def getKind (c : CodeInfo) (row : Nat) : Nat := c.stackMaps.get row StackMap.kKind

def getDexPc (c : CodeInfo) (row : Nat) : Nat := c.stackMaps.get row StackMap.kDexPc

def getNativePcOffset (c : CodeInfo) (row : Nat) (isa : InstructionSet) : Nat :=
  StackMap.unpackNativePc (c.stackMaps.get row StackMap.kPackedNativePc) isa

/-- `GetRegisterMaskOf`: the stored value shifted back, `0` without a mask. -/
def getRegisterMaskOf (c : CodeInfo) (row : Nat) : Nat :=
  let index := c.stackMaps.get row StackMap.kRegisterMaskIndex
  if index = kNoValue then 0
  else u32 (c.registerMasks.get index RegisterMask.kValue <<< c.registerMasks.get index RegisterMask.kShift)

/-- `GetStackMaskOf`: the bitmap row, as wide as the widest stack mask. -/
def getStackMaskOf (c : CodeInfo) (row : Nat) : List Bool :=
  let index := c.stackMaps.get row StackMap.kStackMaskIndex
  if index = kNoValue then [] else c.stackMasks.getBitMemoryRegion index 0

/-- The inline-info rows from `index` to the first one marked last. -/
def inlineInfoRows (t : BitTable) : Nat → Nat → List Nat
  | 0, _ => []
  | fuel + 1, index =>
    index :: if t.get index InlineInfo.kIsLast = InlineInfo.kMore then inlineInfoRows t fuel (index + 1)
      else []

/-- `GetInlineInfosOf`: the rows of the stack map's inlined frames, outermost first. -/
def getInlineInfosOf (c : CodeInfo) (row : Nat) : List Nat :=
  let index := c.stackMaps.get row StackMap.kInlineInfoIndex
  if index ≠ kNoValue then inlineInfoRows c.inlineInfos (c.inlineInfos.numRows - index) index else []

def getInlineInfoDexPc (c : CodeInfo) (inlineRow : Nat) : Nat :=
  c.inlineInfos.get inlineRow InlineInfo.kDexPc

def getDexRegisterCatalogEntry (c : CodeInfo) (index : Nat) : DexRegisterLocation :=
  if index = kNoValue then DexRegisterLocation.none
  else DexRegisterInfo.getLocation c.dexRegisterCatalog index

/-- The set bits of one stack map's mask, below `endReg`: each takes the next entry of the map
and fills its register if no later stack map did.  The map, the count of registers still to
fill, and the map index. -/
def decodeMaskBits (c : CodeInfo) (mask : List Bool) (endReg : Nat)
    (regs : List DexRegisterLocation) (remaining mapIndex : Nat) :
    List DexRegisterLocation × Nat × Nat :=
  (List.range endReg).foldl (fun acc reg =>
    if mask.getD reg false then
      if (acc.1.getD reg DexRegisterLocation.invalid).kind = DexRegisterLocation.kInvalid then
        (acc.1.set reg (c.getDexRegisterCatalogEntry (c.dexRegisterMaps.get acc.2.2 0)),
          acc.2.1 - 1, u32 (acc.2.2 + 1))
      else (acc.1, acc.2.1, u32 (acc.2.2 + 1))
    else acc) (regs, remaining, mapIndex)

/-- One stack map of the backward scan, for the registers from `firstDexRegister` on. -/
def decodeStackMapRegisters (c : CodeInfo) (s firstDexRegister : Nat)
    (regs : List DexRegisterLocation) (remaining : Nat) : List DexRegisterLocation × Nat :=
  let maskIndex := c.stackMaps.get s StackMap.kDexRegisterMaskIndex
  if maskIndex = kNoValue then (regs, remaining)
  else
    let mask := c.dexRegisterMasks.getBitMemoryRegion maskIndex 0
    if mask.length ≤ firstDexRegister then (regs, remaining)
    else
      -- skip the map entries of the registers before the ones asked for
      let mapIndex := u32 (c.stackMaps.get s StackMap.kDexRegisterMapIndex +
        popCount mask firstDexRegister)
      let mask := mask.drop firstDexRegister
      let r := decodeMaskBits c mask (min regs.length mask.length) regs remaining mapIndex
      (r.1, r.2.1)

/-- The scan from stack map `s` back to the first, until every register is filled. -/
def decodeDexRegisterMapLoop (c : CodeInfo) (firstDexRegister : Nat) :
    Nat → List DexRegisterLocation → Nat → List DexRegisterLocation × Nat
  | _, regs, 0 => (regs, 0)
  | 0, regs, remaining => decodeStackMapRegisters c 0 firstDexRegister regs remaining
  | s + 1, regs, remaining =>
    let r := decodeStackMapRegisters c (s + 1) firstDexRegister regs remaining
    decodeDexRegisterMapLoop c firstDexRegister s r.1 r.2

/-- `DecodeDexRegisterMap` into a map of `size` registers from `firstDexRegister` on: the latest
store of each, `None` for a register never stored. -/
def decodeDexRegisterMap (c : CodeInfo) (stackMapIndex firstDexRegister size : Nat) :
    List DexRegisterLocation :=
  let r := decodeDexRegisterMapLoop c firstDexRegister stackMapIndex
    (List.replicate size DexRegisterLocation.invalid) size
  if r.2 ≠ 0 then
    r.1.map fun reg => if reg.kind = DexRegisterLocation.kInvalid then DexRegisterLocation.none else reg
  else r.1

def hasDexRegisterMap (c : CodeInfo) (row : Nat) : Bool :=
  c.stackMaps.get row StackMap.kDexRegisterMapIndex != kNoValue

/-- `GetDexRegisterMapOf`: the method's registers, `number_of_dex_registers_` of them. -/
def getDexRegisterMapOf (c : CodeInfo) (row : Nat) : List DexRegisterLocation :=
  if c.hasDexRegisterMap row then c.decodeDexRegisterMap row 0 c.numberOfDexRegisters else []

/-- `GetInlineDexRegisterMapOf`: the registers of one inlined frame, between the register count
of the frame outside it (the method's, for the first) and its own. -/
def getInlineDexRegisterMapOf (c : CodeInfo) (row inlineRow : Nat) : List DexRegisterLocation :=
  if c.hasDexRegisterMap row then
    let depth := u32I ((inlineRow : Int) - c.stackMaps.get row StackMap.kInlineInfoIndex)
    let first := if depth = 0 then c.numberOfDexRegisters
      else c.inlineInfos.get (inlineRow - 1) InlineInfo.kNumberOfDexRegisters
    let last := c.inlineInfos.get inlineRow InlineInfo.kNumberOfDexRegisters
    c.decodeDexRegisterMap row first (u32I ((last : Int) - first))
  else []

/-- `GetPackedNativePc()` of the stack map in row `row`. -/
def getPackedNativePc (c : CodeInfo) (row : Nat) : Nat := c.stackMaps.get row StackMap.kPackedNativePc

/-- The forward scan of `GetStackMapForNativePcOffset` from row `it`, with `n` rows to the end. -/
def nativePcScan (c : CodeInfo) (pc : Nat) (isa : InstructionSet) : Nat → Nat → Option Nat
  | _, 0 => none
  | it, n + 1 =>
    if c.getNativePcOffset it isa = pc then
      let kind := c.getKind it
      if kind = StackMapKind.default.toUInt32 ∨ kind = StackMapKind.osr.toUInt32 then some it
      else c.nativePcScan pc isa (it + 1) n
    else none

/-- `GetStackMapForNativePcOffset(pc, isa)`: the row of the stack map, `none` for
`GetInvalidRow()`.  `pc` is a `uintptr_t`, which `PackNativePc` takes as a `uint32_t`. -/
def getStackMapForNativePcOffset (c : CodeInfo) (pc : Nat) (isa : InstructionSet) : Option Nat :=
  let packedPc := StackMap.packNativePc (u32 pc) isa
  -- binary search: all catch stack maps are stored separately at the end
  let it := Search.partitionPoint (fun row =>
    decide (c.getPackedNativePc row < packedPc) && c.getKind row != StackMapKind.catch.toUInt32)
    0 c.getNumberOfStackMaps
  c.nativePcScan pc isa it (c.getNumberOfStackMaps - it)

end CodeInfo

end Art
