import Art.Runtime.StackMap

/-!
# Building stack maps (`compiler/optimizing/stack_map_stream.h`, `stack_map_stream.cc`)

The code generator describes each safepoint to a `StackMapStream`: `BeginStackMapEntry`, the dex
register locations of the method and of each inlined frame (`AddDexRegisterEntry`, between
`BeginInlineInfoEntry` and `EndInlineInfoEntry` for a frame), `EndStackMapEntry`.  `Encode`
writes the eight tables as a `CodeInfo`.

Dex register maps are delta-compressed: `CreateDexRegisterMap` stores a register only when it
changed since its last store, or when that store is more than
`kMaxDexRegisterMapSearchDistance` stack maps back.

The operations return `none` where a `DCHECK` of the source fails, so a call sequence that runs
to the end is one a debug build accepts.  The debug build's check of the encoded data against
the calls (`dchecks_`, run by `Encode`) is what the round-trip statements say; it is not part of
the model.  A stack mask is the bit vector as `EndMethod` reads it.
-/

namespace Art

open BitList Word32

def kStackAlignment : Nat := 16

def kMaxDexRegisterMapSearchDistance : Nat := 32

/-- The `CodeInfo` flags. -/
def kHasInlineInfo : Nat := 1
def kIsBaseline : Nat := 2

/-- The method an inline info names: by its `ArtMethod*` when `EncodeArtMethodInInlineInfo` holds
of it, by its dex method index otherwise. -/
inductive InlineMethod where
  | artMethod (address : Nat)
  | dexMethod (dexMethodIndex : Nat)
  deriving DecidableEq, Repr

/-- `LeastSignificantBit` of a nonzero `uint32_t`. -/
def leastSignificantBit (value : Nat) : Nat := ((List.range 32).find? value.testBit).getD 0

/-- A `BitTableBuilder::Entry` as constructed: every column `kNoValue`. -/
def defaultEntry (numColumns : Nat) : List Nat := List.replicate numColumns kNoValue

structure StackMapStream where
  instructionSet : InstructionSet
  codeSize : Nat
  packedFrameSize : Nat
  coreSpillMask : Nat
  fpSpillMask : Nat
  numDexRegisters : Nat
  baseline : Bool
  stackMaps : BitTableBuilder
  registerMasks : BitTableBuilder
  stackMasks : BitmapTableBuilder
  inlineInfos : BitTableBuilder
  methodInfos : BitTableBuilder
  dexRegisterMasks : BitmapTableBuilder
  dexRegisterMaps : BitTableBuilder
  dexRegisterCatalog : BitTableBuilder
  lazyStackMasks : List (Option (List Bool))
  inMethod : Bool
  inStackMap : Bool
  inInlineInfo : Bool
  currentStackMap : List Nat
  currentInlineInfos : List (List Nat)
  currentDexRegisters : List DexRegisterLocation
  previousDexRegisters : List DexRegisterLocation
  dexRegisterTimestamp : List Nat
  expectedNumDexRegisters : Nat
  tempDexRegisterMask : List Bool
  tempDexRegisterMap : List (List Nat)

namespace StackMapStream

def create (instructionSet : InstructionSet) : StackMapStream where
  instructionSet := instructionSet
  codeSize := 0
  packedFrameSize := 0
  coreSpillMask := 0
  fpSpillMask := 0
  numDexRegisters := 0
  baseline := false
  stackMaps := .empty
  registerMasks := .empty
  stackMasks := .empty
  inlineInfos := .empty
  methodInfos := .empty
  dexRegisterMasks := .empty
  dexRegisterMaps := .empty
  dexRegisterCatalog := .empty
  lazyStackMasks := []
  inMethod := false
  inStackMap := false
  inInlineInfo := false
  currentStackMap := defaultEntry 8
  currentInlineInfos := []
  currentDexRegisters := []
  previousDexRegisters := []
  dexRegisterTimestamp := []
  expectedNumDexRegisters := 0
  tempDexRegisterMask := []
  tempDexRegisterMap := []

def beginMethod (s : StackMapStream) (frameSizeInBytes coreSpillMask fpSpillMask numDexRegisters : Nat)
    (baseline : Bool) : Option StackMapStream :=
  if s.inMethod || s.packedFrameSize != 0 || frameSizeInBytes % kStackAlignment != 0 then none
  else some { s with
    inMethod := true
    packedFrameSize := u32 (frameSizeInBytes / kStackAlignment)
    coreSpillMask := u32 coreSpillMask
    fpSpillMask := u32 fpSpillMask
    numDexRegisters := numDexRegisters
    baseline := baseline }

/-- The loop of `EndMethod` from stack map `i` on: each stack mask with a bit set is
deduplicated into the stack mask table, and its index stored in the stack map. -/
def readStackMasks : List (Option (List Bool)) → Nat → BitTableBuilder → BitmapTableBuilder →
    BitTableBuilder × BitmapTableBuilder
  | [], _, stackMaps, stackMasks => (stackMaps, stackMasks)
  | none :: rest, i, stackMaps, stackMasks => readStackMasks rest (i + 1) stackMaps stackMasks
  | some stackMask :: rest, i, stackMaps, stackMasks =>
    if numberOfBits stackMask != 0 then
      let r := stackMasks.dedup stackMask (numberOfBits stackMask)
      let row := (stackMaps.rows.getD i []).set StackMap.kStackMaskIndex r.1
      readStackMasks rest (i + 1) { stackMaps with rows := stackMaps.rows.set i row } r.2
    else readStackMasks rest (i + 1) stackMaps stackMasks

def endMethod (s : StackMapStream) (codeSize : Nat) : Option StackMapStream :=
  let packedCodeSize := StackMap.packNativePc codeSize s.instructionSet
  if !s.inMethod ||
      s.stackMaps.rows.any (fun row => row.getD StackMap.kPackedNativePc 0 > packedCodeSize) then
    none
  else
    let r := readStackMasks s.lazyStackMasks 0 s.stackMaps s.stackMasks
    some { s with inMethod := false, codeSize := u32 codeSize, stackMaps := r.1, stackMasks := r.2 }

/-- The `DCHECK`s of `BeginStackMapEntry` on the order of native pcs: catch stack maps come last,
and the others are sorted. -/
def pcOrderOk (s : StackMapStream) (kind : StackMapKind) (packedNativePc : Nat) : Bool :=
  match s.stackMaps.rows.getLast? with
  | none => true
  | some last =>
    if last.getD StackMap.kKind 0 = StackMapKind.catch.toUInt32 then kind == .catch
    else if kind != .catch then last.getD StackMap.kPackedNativePc 0 ≤ packedNativePc
    else true

def beginStackMapEntry (s : StackMapStream) (dexPc nativePcOffset registerMask : Nat)
    (stackMask : Option (List Bool)) (kind : StackMapKind) (needsVregInfo : Bool) :
    Option StackMapStream :=
  let alignment := getInstructionSetInstructionAlignment s.instructionSet
  let packedNativePc := StackMap.packNativePc nativePcOffset s.instructionSet
  if !s.inMethod || s.inStackMap || nativePcOffset % alignment != 0 ||
      !s.pcOrderOk kind packedNativePc then none
  else
    let current := ((defaultEntry 8).set StackMap.kKind kind.toUInt32
      |>.set StackMap.kPackedNativePc packedNativePc).set StackMap.kDexPc dexPc
    -- register masks are stored as value and shift
    let (current, registerMasks) :=
      if registerMask != 0 then
        let shift := leastSignificantBit registerMask
        let r := s.registerMasks.dedup [[registerMask >>> shift, shift]]
        (current.set StackMap.kRegisterMaskIndex r.1, r.2)
      else (current, s.registerMasks)
    some { s with
      inStackMap := true
      currentStackMap := current
      registerMasks := registerMasks
      lazyStackMasks := s.lazyStackMasks ++ [stackMask]
      currentInlineInfos := []
      currentDexRegisters := []
      expectedNumDexRegisters := if needsVregInfo then s.numDexRegisters else 0 }

def addDexRegisterEntry (s : StackMapStream) (kind value : Int) : StackMapStream :=
  { s with currentDexRegisters := s.currentDexRegisters ++ [⟨kind, value⟩] }

def beginInlineInfoEntry (s : StackMapStream) (method : InlineMethod) (dexPc numDexRegisters : Nat) :
    Option StackMapStream :=
  if !s.inStackMap || s.inInlineInfo ||
      s.expectedNumDexRegisters != s.currentDexRegisters.length then none
  else
    let expected := s.expectedNumDexRegisters + numDexRegisters
    let entry := ((defaultEntry 6).set InlineInfo.kIsLast InlineInfo.kMore
      |>.set InlineInfo.kDexPc dexPc).set InlineInfo.kNumberOfDexRegisters (u32 expected)
    let (entry, methodInfos) := match method with
      | .artMethod address =>
        ((entry.set InlineInfo.kArtMethodHi (address / 2 ^ 32 % 2 ^ 32)).set InlineInfo.kArtMethodLo
          (address % 2 ^ 32), s.methodInfos)
      | .dexMethod dexMethodIndex =>
        let r := s.methodInfos.dedup [[dexMethodIndex]]
        (entry.set InlineInfo.kMethodInfoIndex r.1, r.2)
    some { s with
      inInlineInfo := true
      expectedNumDexRegisters := expected
      currentInlineInfos := s.currentInlineInfos ++ [entry]
      methodInfos := methodInfos }

def endInlineInfoEntry (s : StackMapStream) : Option StackMapStream :=
  if !s.inInlineInfo || s.expectedNumDexRegisters != s.currentDexRegisters.length then none
  else some { s with inInlineInfo := false }

/-- One register of `CreateDexRegisterMap`: stored in the catalogue, marked in the mask and
entered in the map when it changed since its last store or that store is too far back. -/
def storeDexRegister (s : StackMapStream) (i : Nat) : StackMapStream :=
  let reg := s.currentDexRegisters.getD i DexRegisterLocation.none
  -- distance from the stack map of the last store
  let distance := u32I ((s.stackMaps.size : Int) - s.dexRegisterTimestamp.getD i 0)
  if s.previousDexRegisters.getD i DexRegisterLocation.none != reg ||
      distance > kMaxDexRegisterMapSearchDistance then
    let entry := [u32I reg.kind, DexRegisterInfo.packValue reg.kind reg.value]
    let (index, catalog) :=
      if reg.isLive then s.dexRegisterCatalog.dedup [entry] else (kNoValue, s.dexRegisterCatalog)
    { s with
      dexRegisterCatalog := catalog
      tempDexRegisterMask := s.tempDexRegisterMask.set i true
      tempDexRegisterMap := s.tempDexRegisterMap ++ [[index]]
      previousDexRegisters := s.previousDexRegisters.set i reg
      dexRegisterTimestamp := s.dexRegisterTimestamp.set i s.stackMaps.size }
  else s

def createDexRegisterMap (s : StackMapStream) : StackMapStream :=
  let n := s.currentDexRegisters.length
  let s := { s with
    tempDexRegisterMask := List.replicate n false
    tempDexRegisterMap := []
    previousDexRegisters := s.previousDexRegisters ++
      List.replicate (n - s.previousDexRegisters.length) DexRegisterLocation.none
    dexRegisterTimestamp := s.dexRegisterTimestamp ++
      List.replicate (n - s.dexRegisterTimestamp.length) 0 }
  let s := (List.range n).foldl storeDexRegister s
  -- the mask and the map of the current stack map, which include the inlined registers
  let s :=
    if numberOfBits s.tempDexRegisterMask != 0 then
      let r := s.dexRegisterMasks.dedup s.tempDexRegisterMask (numberOfBits s.tempDexRegisterMask)
      { s with
        currentStackMap := s.currentStackMap.set StackMap.kDexRegisterMaskIndex r.1
        dexRegisterMasks := r.2 }
    else s
  if s.currentDexRegisters != [] then
    let r := s.dexRegisterMaps.dedup s.tempDexRegisterMap
    { s with
      currentStackMap := s.currentStackMap.set StackMap.kDexRegisterMapIndex r.1
      dexRegisterMaps := r.2 }
  else s

def endStackMapEntry (s : StackMapStream) : Option StackMapStream :=
  if !s.inStackMap ||
      (s.currentDexRegisters != [] &&
        s.expectedNumDexRegisters != s.currentDexRegisters.length) then none
  else
    let s := { s with inStackMap := false }
    -- the inline infos, the last one marked as such
    let s :=
      match s.currentInlineInfos.getLast? with
      | none => s
      | some last =>
        let infos := s.currentInlineInfos.dropLast ++ [last.set InlineInfo.kIsLast InlineInfo.kLast]
        let r := s.inlineInfos.dedup infos
        { s with
          currentInlineInfos := infos
          currentStackMap := s.currentStackMap.set StackMap.kInlineInfoIndex r.1
          inlineInfos := r.2 }
    let s := if s.currentDexRegisters != [] then s.createDexRegisterMap else s
    some { s with stackMaps := s.stackMaps.add s.currentStackMap }

/-- The sizes of the eight tables, in `ForEachBitTable` order. -/
def tableSizes (s : StackMapStream) : List Nat :=
  [s.stackMaps.size, s.registerMasks.size, s.stackMasks.size, s.inlineInfos.size,
    s.methodInfos.size, s.dexRegisterMasks.size, s.dexRegisterMaps.size, s.dexRegisterCatalog.size]

/-- `bit_table_flags`: bit `i` for each table that is not empty. -/
def bitTableFlags (s : StackMapStream) : Nat :=
  (List.range kNumBitTables).foldl
    (fun flags i => if s.tableSizes.getD i 0 != 0 then flags ||| 1 <<< i else flags) 0

/-- The tables, each written when it is not empty. -/
def encodeTables (s : StackMapStream) (out : BitMemoryWriter) : BitMemoryWriter :=
  let out := if s.stackMaps.size != 0 then s.stackMaps.encode 8 out else out
  let out := if s.registerMasks.size != 0 then s.registerMasks.encode 2 out else out
  let out := if s.stackMasks.size != 0 then s.stackMasks.encode out else out
  let out := if s.inlineInfos.size != 0 then s.inlineInfos.encode 6 out else out
  let out := if s.methodInfos.size != 0 then s.methodInfos.encode 1 out else out
  let out := if s.dexRegisterMasks.size != 0 then s.dexRegisterMasks.encode out else out
  let out := if s.dexRegisterMaps.size != 0 then s.dexRegisterMaps.encode 1 out else out
  if s.dexRegisterCatalog.size != 0 then s.dexRegisterCatalog.encode 2 out else out

/-- `Encode`: the header, the tables, and the `CHECK`s that the result decodes. -/
def encode (s : StackMapStream) : Option (List Bool) :=
  if s.inStackMap || s.inInlineInfo then none
  else
    let flags := (if s.inlineInfos.size > 0 then kHasInlineInfo else 0) |||
      (if s.baseline then kIsBaseline else 0)
    let out := (BitMemoryWriter.mk []).writeInterleavedVarints
      [flags, s.codeSize, s.packedFrameSize, s.coreSpillMask, s.fpSpillMask, s.numDexRegisters,
        s.bitTableFlags]
    let out := s.encodeTables out
    let decoded := CodeInfo.decode out.bits 0
    -- `HasInlineInfo` and `IsBaseline` read the first byte of the buffer
    let firstByte := toNat (slice out.bits 0 kBitsPerByte)
    if decoded.2.2 != out.numberOfWrittenBits ||
        decoded.1.getNumberOfStackMaps != s.stackMaps.size ||
        (firstByte &&& kHasInlineInfo != 0) != decide (s.inlineInfos.size > 0) ||
        (firstByte &&& kIsBaseline != 0) != s.baseline then none
    else some out.bits

end StackMapStream

/-- A call of the code generator between `BeginMethod` and `EndMethod`. -/
inductive StackMapCall where
  | beginStackMapEntry (dexPc nativePcOffset registerMask : Nat) (stackMask : Option (List Bool))
      (kind : StackMapKind) (needsVregInfo : Bool)
  | endStackMapEntry
  | addDexRegisterEntry (kind value : Int)
  | beginInlineInfoEntry (method : InlineMethod) (dexPc numDexRegisters : Nat)
  | endInlineInfoEntry
  deriving DecidableEq, Repr

namespace StackMapStream

def call (s : StackMapStream) : StackMapCall → Option StackMapStream
  | .beginStackMapEntry dexPc nativePcOffset registerMask stackMask kind needsVregInfo =>
    s.beginStackMapEntry dexPc nativePcOffset registerMask stackMask kind needsVregInfo
  | .endStackMapEntry => s.endStackMapEntry
  | .addDexRegisterEntry kind value => some (s.addDexRegisterEntry kind value)
  | .beginInlineInfoEntry method dexPc numDexRegisters =>
    s.beginInlineInfoEntry method dexPc numDexRegisters
  | .endInlineInfoEntry => s.endInlineInfoEntry

def callAll (s : StackMapStream) : List StackMapCall → Option StackMapStream
  | [] => some s
  | c :: cs => (s.call c).bind fun s => s.callAll cs

end StackMapStream

/-- A method's stack maps, from `BeginMethod` to `Encode`. -/
def encodeStackMaps (isa : InstructionSet) (frameSizeInBytes coreSpillMask fpSpillMask
    numDexRegisters : Nat) (baseline : Bool) (calls : List StackMapCall) (codeSize : Nat) :
    Option (List Bool) := do
  let s ← (StackMapStream.create isa).beginMethod frameSizeInBytes coreSpillMask fpSpillMask
    numDexRegisters baseline
  let s ← s.callAll calls
  let s ← s.endMethod codeSize
  s.encode

end Art
