import Art.Profile.ProfileCompilationInfo
import Art.Dex.DescriptorsNames
import Art.Lib.ByteMemory

/-!
# Loading a profile (`LoadInternal` in `libprofile/profile/profile_compilation_info.cc`)

A profile file is a header, a table of sections and the sections' data.  `LoadInternal` reads
the header and the table from the source, then each section into a `SafeBuffer` of its own,
inflated when the table says so.  The dex files section comes first and builds
`dex_profile_index_remap`, the profile index here of each dex file of the file (or
`MaxProfileIndex()` for one the filter drops); an extra descriptors section adds to
`extra_descriptors_remap`; the classes and methods sections read one record after another, each
led by the profile index of its dex file in the file.

The source is a memory map: a byte list with a cursor.  Inflation is a parameter, any function of
the compressed bytes and the size the table gives.  A `SafeBuffer` is the list of its bytes from
the current pointer to its end.

The model returns the profile after a successful load, and the status and message of a failed
one (not what the profile holds after it).  Two more outcomes stand for what the source does not
check: `outOfBounds` for an access outside a vector, a bitmap or a buffer (undefined behaviour,
or a failed `DCHECK`), and `outOfFuel` for a loop of the model that runs out of its fuel, the
buffer's length, although every round of it reads a byte.
-/

namespace Art

namespace ProfileCompilationInfo

open MethodHotness Word32

inductive ProfileLoadStatus
  | kSuccess
  | kIOError
  | kBadMagic
  | kVersionMismatch
  | kBadData
  | kMergeError
  deriving DecidableEq, Repr

/-- How a load can fail: a status with the message of `*error`, or one of the two outcomes the
source has no status for. -/
inductive LoadError
  | status (status : ProfileLoadStatus) (error : String)
  | outOfBounds
  | outOfFuel
  deriving DecidableEq, Repr

/-- A failure with the given status and message. -/
def fail {α : Type} (status : ProfileLoadStatus) (error : String) : Except LoadError α :=
  .error (.status status error)

/-- `kMaxDexFileKeyLength`. -/
def kMaxDexFileKeyLength : Nat := 1024

/-- `kMaxSupportedMethodIndex`. -/
def kMaxSupportedMethodIndex : Nat := 0xffff

def kIsMissingTypesEncoding : Nat := 6

def kIsMegamorphicEncoding : Nat := 7

/-- `BitsToBytesRoundUp`. -/
def bitsToBytesRoundUp (numBits : Nat) : Nat := (numBits + kBitsPerByte - 1) / kBitsPerByte

/-- A `std::string` of the bytes of a `std::string_view`. -/
def bytesToString (bytes : List (BitVec 8)) : String :=
  String.ofList (bytes.map fun b => Char.ofNat b.toNat)

/-! ## `SafeBuffer` -/

/-- `SafeBuffer`, from `ptr_current_` to `ptr_end_`. -/
abbrev SafeBuffer := List (BitVec 8)

namespace SafeBuffer

/-- `ReadUintAndAdvance` of an unsigned type of `width` bytes: little-endian. -/
def readUintAndAdvance (width : Nat) (buffer : SafeBuffer) : Option (Nat × SafeBuffer) :=
  if width > buffer.length then none
  else some ((ByteMemory.ofList buffer).loadLE 0 width, buffer.drop width)

/-- `ReadStringAndAdvance`: a `uint16_t` length and that many bytes, none of them zero. -/
def readStringAndAdvance (buffer : SafeBuffer) : Option (List (BitVec 8) × SafeBuffer) :=
  match readUintAndAdvance 2 buffer with
  | none => none
  | some (length, buffer) =>
    if length > buffer.length then none
    else if 0 ∈ buffer.take length then none
    else some (buffer.take length, buffer.drop length)

/-- `Advance`, which only `DCHECK`s that the bytes are there. -/
def advance (dataSize : Nat) (buffer : SafeBuffer) : Except LoadError SafeBuffer :=
  if dataSize > buffer.length then .error .outOfBounds else .ok (buffer.drop dataSize)

/-- Bit `i` of a `BitMemoryRegion` that starts at the current pointer. -/
def bit (buffer : SafeBuffer) (i : Nat) : Bool := (buffer.getD (i / kBitsPerByte) 0).getLsbD (i % kBitsPerByte)

end SafeBuffer

open SafeBuffer

/-! ## Type indexes -/

/-- The messages of one of the two type index loops. -/
structure TypeIndexErrors where
  read : String
  duplicate : String
  invalid : String
  remapped : String

def classTypeIndexErrors : TypeIndexErrors :=
  ⟨"Error reading class type index diff.", "Duplicate type index.", "Invalid type index.",
    "Remapped type index out of range."⟩

def inlineCacheTypeIndexErrors : TypeIndexErrors :=
  ⟨"Error reading inline cache type index diff.", "Duplicate inline cache type index.",
    "Invalid inline cache type index.", "Remapped inline cache type index out of range."⟩

/-- `num_valid_type_indexes`: the type ids and the extra descriptors, at most `kDexNoIndex16`. -/
def numValidTypeIndexes (numTypeIds : Nat) (extraDescriptorsRemap : List Nat) : Nat :=
  min (numTypeIds + extraDescriptorsRemap.length) kDexNoIndex16

/-- The loop over the type indexes of `ReadClasses` and of an inline cache in `ReadMethods`:
`count` more differences from `typeIndex`, the `i`-th next, each index handed to `add`.  An index
past the type ids is remapped to the extra descriptor here, and the next difference is taken from
the remapped index. -/
def readTypeIndexes {α : Type} (errors : TypeIndexErrors) (numTypeIds : Nat)
    (extraDescriptorsRemap : List Nat) (add : α → Nat → α) :
    Nat → Nat → Nat → α → SafeBuffer → Except LoadError (α × SafeBuffer)
  | 0, _, _, acc, buffer => .ok (acc, buffer)
  | count + 1, i, typeIndex, acc, buffer =>
    match readUintAndAdvance 2 buffer with
    | none => fail .kBadData errors.read
    | some (typeIndexDiff, buffer) =>
      if typeIndexDiff = 0 ∧ i ≠ 0 then fail .kBadData errors.duplicate
      -- `uint16_t` operands, so an `int` difference: negative after a remapped index
      else if (typeIndexDiff : Int) ≥
          (numValidTypeIndexes numTypeIds extraDescriptorsRemap : Int) - typeIndex then
        fail .kBadData errors.invalid
      else
        let typeIndex := (typeIndex + typeIndexDiff) % 2 ^ 16
        if typeIndex ≥ numTypeIds then
          match extraDescriptorsRemap[typeIndex - numTypeIds]? with
          | none => .error .outOfBounds
          | some newExtraDescriptorIndex =>
            if newExtraDescriptorIndex ≥ u32I ((kDexNoIndex16 : Int) - numTypeIds) then
              fail .kMergeError errors.remapped
            else
              let typeIndex := (numTypeIds + newExtraDescriptorIndex) % 2 ^ 16
              readTypeIndexes errors numTypeIds extraDescriptorsRemap add count (i + 1) typeIndex
                (add acc typeIndex) buffer
        else
          readTypeIndexes errors numTypeIds extraDescriptorsRemap add count (i + 1) typeIndex
            (add acc typeIndex) buffer

/-! ## Classes -/

/-- `DexFileData::ReadClasses`. -/
def readClasses (d : DexFileData) (buffer : SafeBuffer) (extraDescriptorsRemap : List Nat) :
    Except LoadError (DexFileData × SafeBuffer) :=
  match readUintAndAdvance 2 buffer with
  | none => fail .kBadData "Error reading classes size."
  | some (classesSize, buffer) =>
    match readTypeIndexes classTypeIndexErrors d.numTypeIds extraDescriptorsRemap
        (fun classSet typeIndex => SortedSet.insert typeIndex classSet) classesSize 0 0 d.classSet
        buffer with
    | .error e => .error e
    | .ok (classSet, buffer) => .ok ({ d with classSet := classSet }, buffer)

/-- `DexFileData::SkipClasses`. -/
def skipClasses (buffer : SafeBuffer) : Except LoadError SafeBuffer :=
  match readUintAndAdvance 2 buffer with
  | none => fail .kBadData "Error reading classes size to skip."
  | some (classesSize, buffer) =>
    let followingDataSize := classesSize * 2
    if followingDataSize > buffer.length then
      fail .kBadData "Classes data size to skip exceeds remaining data."
    else advance followingDataSize buffer

/-! ## Methods -/

/-- `BitMemoryRegion::OrBits` on a region of `bitSize` bits over `storage`: the `bitLength` bits
of `src` or-ed in from `bitOffset`. -/
def orBits (storage : List Nat) (bitSize bitOffset : Nat) (src : Nat → Bool) (bitLength : Nat) :
    Except LoadError (List Nat) :=
  if bitOffset + bitLength > bitSize then .error .outOfBounds
  else .ok ((List.range bitLength).foldl (fun storage bit =>
    if src bit then
      let p := bitOffset + bit
      storage.modify (p / kBitsPerByte) (· ||| 1 <<< (p % kBitsPerByte))
    else storage) storage)

/-- One round of the `ForMethodBitmapHotnessFlags` loop of `ReadMethods`: for a flag of
`methodFlags`, the next `num_method_ids` bits of the saved bitmap or-ed into the flag's bitmap.
The state is the bitmap storage and `saved_bitmap_index`. -/
def orSavedBitmap (d : DexFileData) (methodFlags : Nat) (savedBitmap : SafeBuffer)
    (savedBitmapBitSize : Nat) (acc : List Nat × Nat) (flag : Nat) :
    Except LoadError (List Nat × Nat) :=
  let n := d.numMethodIds
  if methodFlags &&& flag ≠ 0 then
    -- `saved_bitmap.Subregion(saved_bitmap_index * num_method_ids, num_method_ids)`
    if acc.2 * n + n > savedBitmapBitSize then .error .outOfBounds
    else
      match orBits acc.1 (DexFileData.computeBitmapBits d.isForBootImage n)
          (DexFileData.flagBitmapIndex flag * n) (fun j => savedBitmap.bit (acc.2 * n + j)) n with
      | .error e => .error e
      | .ok storage => .ok (storage, acc.2 + 1)
  else .ok acc

/-- The `ForMethodBitmapHotnessFlags` loop of `ReadMethods`. -/
def orSavedBitmaps (d : DexFileData) (methodFlags : Nat) (savedBitmap : SafeBuffer)
    (savedBitmapBitSize : Nat) : Except LoadError DexFileData :=
  match (DexFileData.forMethodBitmapHotnessFlags d.isForBootImage).foldlM
      (orSavedBitmap d methodFlags savedBitmap savedBitmapBitSize) (d.bitmapStorage, 0) with
  | .error e => .error e
  | .ok (storage, _) => .ok { d with bitmapStorage := storage }

/-- The loop over the inline caches of a hot method: `count` more dex pcs. -/
def readInlineCaches (numTypeIds : Nat) (extraDescriptorsRemap : List Nat) :
    Nat → InlineCacheMap → SafeBuffer → Except LoadError (InlineCacheMap × SafeBuffer)
  | 0, inlineCache, buffer => .ok (inlineCache, buffer)
  | count + 1, inlineCache, buffer =>
    match readUintAndAdvance 2 buffer with
    | none => fail .kBadData "Error reading inline cache dex pc."
    | some (dexPc, buffer) =>
      -- `FindOrAddDexPc`
      let dexPcData := (inlineCache.lookup dexPc).getD DexPcData.empty
      match readUintAndAdvance 1 buffer with
      | none => fail .kBadData "Error reading inline cache classes size."
      | some (inlineCacheClassesSize, buffer) =>
        let read : Except LoadError (DexPcData × SafeBuffer) :=
          if inlineCacheClassesSize = kIsMissingTypesEncoding then
            .ok (dexPcData.setIsMissingTypes, buffer)
          else if inlineCacheClassesSize = kIsMegamorphicEncoding then
            .ok (dexPcData.setIsMegamorphic, buffer)
          else if inlineCacheClassesSize ≥ kIndividualInlineCacheSize then
            fail .kBadData "Inline cache size too large."
          else
            readTypeIndexes inlineCacheTypeIndexErrors numTypeIds extraDescriptorsRemap
              DexPcData.addClass inlineCacheClassesSize 0 0 dexPcData buffer
        match read with
        | .error e => .error e
        | .ok (dexPcData, buffer) =>
          readInlineCaches numTypeIds extraDescriptorsRemap count
            (SortedMap.insert dexPc dexPcData inlineCache) buffer

/-- The `while` loop over the hot methods of `ReadMethods`, until `expectedAvailableBytesAtEnd`
bytes are left: the last method index and whether no difference was read yet. -/
def readHotMethods (extraDescriptorsRemap : List Nat) (expectedAvailableBytesAtEnd : Nat) :
    Nat → Nat → Bool → DexFileData → SafeBuffer → Except LoadError (DexFileData × SafeBuffer)
  | 0, _, _, d, buffer =>
    if buffer.length > expectedAvailableBytesAtEnd then .error .outOfFuel else .ok (d, buffer)
  | fuel + 1, methodIndex, firstDiff, d, buffer =>
    if buffer.length > expectedAvailableBytesAtEnd then
      let numValidMethodIndexes := min (kMaxSupportedMethodIndex + 1) d.numMethodIds
      match readUintAndAdvance 2 buffer with
      | none => fail .kBadData "Error reading method index diff."
      | some (diffWithLastMethodIndex, buffer) =>
        if diffWithLastMethodIndex = 0 ∧ !firstDiff then fail .kBadData "Duplicate method index."
        -- a `uint32_t` difference
        else if diffWithLastMethodIndex ≥ u32I ((numValidMethodIndexes : Int) - methodIndex) then
          fail .kBadData "Invalid method index."
        else
          let methodIndex := (methodIndex + diffWithLastMethodIndex) % 2 ^ 16
          -- `FindOrAddHotMethod` returns `nullptr` past the method ids
          if methodIndex ≥ d.numMethodIds then .error .outOfBounds
          else
            let inlineCache := (d.methodMap.lookup methodIndex).getD []
            match readUintAndAdvance 2 buffer with
            | none => fail .kBadData "Error reading inline cache size."
            | some (inlineCacheSize, buffer) =>
              match readInlineCaches d.numTypeIds extraDescriptorsRemap inlineCacheSize inlineCache
                  buffer with
              | .error e => .error e
              | .ok (inlineCache, buffer) =>
                readHotMethods extraDescriptorsRemap expectedAvailableBytesAtEnd fuel methodIndex
                  false { d with methodMap := SortedMap.insert methodIndex inlineCache d.methodMap }
                  buffer
    else .ok (d, buffer)

/-- `DexFileData::ReadMethods`: a `uint32_t` size of what follows, the flags, the bitmap of each
flag but `kFlagHot`, and the hot methods with their inline caches. -/
def readMethods (d : DexFileData) (buffer : SafeBuffer) (extraDescriptorsRemap : List Nat) :
    Except LoadError (DexFileData × SafeBuffer) :=
  match readUintAndAdvance 4 buffer with
  | none => fail .kBadData "Error reading methods data size."
  | some (followingDataSize, buffer) =>
    if followingDataSize > buffer.length then
      fail .kBadData "Methods data size exceeds available data size."
    else
      let expectedAvailableBytesAtEnd := buffer.length - followingDataSize
      match readUintAndAdvance 2 buffer with
      | none => fail .kBadData "Error reading method flags."
      | some (methodFlags, buffer) =>
        if !d.isForBootImage ∧ methodFlags ≥ kFlagLastRegular <<< 1 then
          fail .kBadData "Method flags contain boot image profile flags for non-boot image profile."
        else
          let savedBitmapBitSize :=
            (BitVec.ofNat 32 methodFlags &&& ~~~(BitVec.ofNat 32 kFlagHot)).cpop.toNat *
              d.numMethodIds
          let savedBitmapByteSize := bitsToBytesRoundUp savedBitmapBitSize
          if 2 + savedBitmapByteSize > followingDataSize then
            fail .kBadData "Insufficient available data for method bitmap."
          -- `saved_bitmap` is a region of the buffer
          else if savedBitmapByteSize > buffer.length then .error .outOfBounds
          else
            match orSavedBitmaps d methodFlags buffer savedBitmapBitSize with
            | .error e => .error e
            | .ok d =>
              match advance savedBitmapByteSize buffer with
              | .error e => .error e
              | .ok buffer =>
                let hot : Except LoadError (DexFileData × SafeBuffer) :=
                  if methodFlags &&& kFlagHot ≠ 0 then
                    readHotMethods extraDescriptorsRemap expectedAvailableBytesAtEnd buffer.length 0
                      true d buffer
                  else .ok (d, buffer)
                match hot with
                | .error e => .error e
                | .ok (d, buffer) =>
                  if buffer.length ≠ expectedAvailableBytesAtEnd then
                    fail .kBadData "Methods data did not end at expected position."
                  else .ok (d, buffer)

/-- `DexFileData::SkipMethods`. -/
def skipMethods (buffer : SafeBuffer) : Except LoadError SafeBuffer :=
  match readUintAndAdvance 4 buffer with
  | none => fail .kBadData "Error reading methods data size to skip."
  | some (followingDataSize, buffer) =>
    if followingDataSize > buffer.length then
      fail .kBadData "Methods data size to skip exceeds remaining data."
    else advance followingDataSize buffer

/-! ## Sections -/

/-- The record loop of `ReadClassesSection` and `ReadMethodsSection`, which differ in their
messages and in the readers of a record: until the buffer is empty, a profile index of the file,
remapped, then the record read into that dex file or skipped. -/
def readRecords (indexErrors : String × String)
    (read : DexFileData → SafeBuffer → List Nat → Except LoadError (DexFileData × SafeBuffer))
    (skip : SafeBuffer → Except LoadError SafeBuffer)
    (dexProfileIndexRemap extraDescriptorsRemap : List Nat) :
    Nat → ProfileCompilationInfo → SafeBuffer → Except LoadError ProfileCompilationInfo
  | 0, p, buffer => if buffer.length ≠ 0 then .error .outOfFuel else .ok p
  | fuel + 1, p, buffer =>
    if buffer.length ≠ 0 then
      match readUintAndAdvance 2 buffer with
      | none => fail .kBadData indexErrors.1
      | some (profileIndex, buffer) =>
        if h : profileIndex < dexProfileIndexRemap.length then
          let profileIndex := dexProfileIndexRemap[profileIndex]
          if profileIndex = maxProfileIndex then
            match skip buffer with
            | .error e => .error e
            | .ok buffer =>
              readRecords indexErrors read skip dexProfileIndexRemap extraDescriptorsRemap fuel p buffer
          else
            match p.info[profileIndex]? with
            | none => .error .outOfBounds
            | some d =>
              match read d buffer extraDescriptorsRemap with
              | .error e => .error e
              | .ok (d, buffer) =>
                readRecords indexErrors read skip dexProfileIndexRemap extraDescriptorsRemap fuel
                  { p with info := p.info.set profileIndex d } buffer
        else fail .kBadData indexErrors.2
    else .ok p

/-- `ReadClassesSection` on the section's buffer. -/
def readClassesSection (p : ProfileCompilationInfo) (buffer : SafeBuffer)
    (dexProfileIndexRemap extraDescriptorsRemap : List Nat) :
    Except LoadError ProfileCompilationInfo :=
  readRecords ("Error profile index in classes section.", "Invalid profile index in classes section.")
    readClasses skipClasses dexProfileIndexRemap extraDescriptorsRemap buffer.length p buffer

/-- `ReadMethodsSection` on the section's buffer. -/
def readMethodsSection (p : ProfileCompilationInfo) (buffer : SafeBuffer)
    (dexProfileIndexRemap extraDescriptorsRemap : List Nat) :
    Except LoadError ProfileCompilationInfo :=
  readRecords ("Error profile index in methods section.", "Invalid profile index in methods section.")
    readMethods skipMethods dexProfileIndexRemap extraDescriptorsRemap buffer.length p buffer

/-- The loop of `ReadDexFilesSection` over `count` more dex files: the profile and
`dex_profile_index_remap`. -/
def readDexFiles (filterFn : String → Nat → Bool) :
    Nat → ProfileCompilationInfo × List Nat → SafeBuffer →
      Except LoadError ((ProfileCompilationInfo × List Nat) × SafeBuffer)
  | 0, acc, buffer => .ok (acc, buffer)
  | count + 1, (p, remap), buffer =>
    match readUintAndAdvance 4 buffer with
    | none => fail .kBadData "Error reading dex file data."
    | some (checksum, buffer) =>
    match readUintAndAdvance 4 buffer with
    | none => fail .kBadData "Error reading dex file data."
    | some (numTypeIds, buffer) =>
    match readUintAndAdvance 4 buffer with
    | none => fail .kBadData "Error reading dex file data."
    | some (numMethodIds, buffer) =>
    match readStringAndAdvance buffer with
    | none => fail .kBadData "Missing terminating null character for profile key."
    | some (profileKeyView, buffer) =>
      if profileKeyView.length = 0 ∨ profileKeyView.length > kMaxDexFileKeyLength then
        fail .kBadData ("ProfileKey has an invalid size: " ++ toString profileKeyView.length)
      else
        let profileKey := bytesToString profileKeyView
        if !filterFn profileKey checksum then
          readDexFiles filterFn count (p, remap ++ [maxProfileIndex]) buffer
        else
          match p.getOrAddDexFileData profileKey checksum numTypeIds numMethodIds with
          | (p, none) =>
            if p.info.length = maxProfileIndex ∧ p.findProfileIndex profileKey = none then
              fail .kBadData "Too many dex files."
            else fail .kBadData ("Checksum, NumTypeIds, or NumMethodIds mismatch for " ++ profileKey)
          | (p, some profileIndex) => readDexFiles filterFn count (p, remap ++ [profileIndex]) buffer

/-- `ReadDexFilesSection` on the section's buffer: the profile and `dex_profile_index_remap`. -/
def readDexFilesSection (p : ProfileCompilationInfo) (buffer : SafeBuffer)
    (filterFn : String → Nat → Bool) : Except LoadError (ProfileCompilationInfo × List Nat) :=
  match readUintAndAdvance 2 buffer with
  | none => fail .kBadData "Error reading number of dex files."
  | some (numDexFiles, buffer) =>
    if numDexFiles ≥ maxProfileIndex then fail .kBadData "Too many dex files."
    else
      match readDexFiles filterFn numDexFiles (p, []) buffer with
      | .error e => .error e
      | .ok (acc, buffer) =>
        if buffer.length ≠ 0 then fail .kBadData "Unexpected data at end of dex files section."
        else .ok acc

/-- The loop of `ReadExtraDescriptorsSection` over `count` more descriptors. -/
def readExtraDescriptors :
    Nat → ProfileCompilationInfo × List Nat → SafeBuffer →
      Except LoadError (ProfileCompilationInfo × List Nat)
  | 0, acc, _ => .ok acc
  | count + 1, (p, remap), buffer =>
    match readStringAndAdvance buffer with
    | none => fail .kBadData "Missing terminating null character for extra descriptor."
    | some (extraDescriptor, buffer) =>
      if !isValidDescriptor (extraDescriptor.map BitVec.toNat) then
        fail .kBadData "Invalid extra descriptor."
      else
        let extraDescriptor := bytesToString extraDescriptor
        match p.extraDescriptors.idxOf? extraDescriptor with
        | some index => readExtraDescriptors count (p, remap ++ [index]) buffer
        | none =>
          match p.addExtraDescriptor extraDescriptor with
          | (p, extraDescriptorIndex) =>
            if extraDescriptorIndex = kMaxExtraDescriptors then
              fail .kMergeError "Too many extra descriptors."
            else readExtraDescriptors count (p, remap ++ [extraDescriptorIndex]) buffer

/-- `ReadExtraDescriptorsSection` on the section's buffer, adding to `extra_descriptors_remap`;
what follows the descriptors is not looked at. -/
def readExtraDescriptorsSection (p : ProfileCompilationInfo) (buffer : SafeBuffer)
    (extraDescriptorsRemap : List Nat) : Except LoadError (ProfileCompilationInfo × List Nat) :=
  match readUintAndAdvance 2 buffer with
  | none => fail .kBadData "Error reading number of extra descriptors."
  | some (numExtraDescriptors, buffer) =>
    readExtraDescriptors numExtraDescriptors (p, extraDescriptorsRemap) buffer

/-- An extra descriptors section of no descriptor and one more byte is read without complaint,
where the dex files section turns away the same trailing byte. -/
theorem extra_descriptors_section_ignores_trailing_data :
    readExtraDescriptorsSection (create false) [0, 0, 0x41] [] = .ok (create false, []) ∧
      readDexFilesSection (create false) [0, 0, 0x41] (fun _ _ => true) =
        fail .kBadData "Unexpected data at end of dex files section." := by
  decide

/-! ## The file -/

/-- `FileSectionInfo`; the type is the `uint32_t` of the file, any value. -/
structure FileSectionInfo where
  type : Nat
  fileOffset : Nat
  fileSize : Nat
  inflatedSize : Nat
  deriving DecidableEq, Repr

/-- `GetMemSize`. -/
def FileSectionInfo.memSize (s : FileSectionInfo) : Nat :=
  if s.inflatedSize ≠ 0 then s.inflatedSize else s.fileSize

/-- The `FileSectionType` values. -/
def kDexFiles : Nat := 0
def kExtraDescriptors : Nat := 1
def kClasses : Nat := 2
def kMethods : Nat := 3

def kProfileMagic : List (BitVec 8) := [0x70, 0x72, 0x6f, 0]
def kProfileVersion : List (BitVec 8) := [0x30, 0x31, 0x35, 0]
def kProfileVersionForBootImage : List (BitVec 8) := [0x30, 0x31, 0x36, 0]

/-- `sizeof(FileHeader)` and `sizeof(FileSectionInfo)`. -/
def fileHeaderSize : Nat := 12
def fileSectionInfoSize : Nat := 16

def kMaxFileSectionCount : Nat := (2 ^ 32 - 1 - fileHeaderSize) / fileSectionInfoSize

def kSizeWarningThresholdBytes : Nat := 500000
def kSizeErrorThresholdBytes : Nat := 1500000
def kSizeErrorThresholdBootBytes : Nat := 100000000

/-- `GetSizeErrorThresholdBytes()`. -/
def getSizeErrorThresholdBytes (p : ProfileCompilationInfo) : Nat :=
  if p.forBootImage then kSizeErrorThresholdBootBytes else kSizeErrorThresholdBytes

/-- A memory-mapped `ProfileSource`: its bytes and the cursor. -/
structure ProfileSource where
  bytes : List (BitVec 8)
  cur : Nat

namespace ProfileSource

/-- `Read`: `byteCount` bytes at the cursor, which advances past them. -/
def read (source : ProfileSource) (byteCount : Nat) :
    Except LoadError (List (BitVec 8) × ProfileSource) :=
  if byteCount > source.bytes.length - source.cur then fail .kBadData ""
  else .ok ((source.bytes.drop source.cur).take byteCount, { source with cur := source.cur + byteCount })

/-- `Seek`. -/
def seek (source : ProfileSource) (offset : Nat) : Option ProfileSource :=
  if offset > source.bytes.length then none else some { source with cur := offset }

end ProfileSource

/-- `ReadSectionData`: the section's bytes from the file, inflated by `inflate` unless its
inflated size is zero. -/
def readSectionData (source : ProfileSource)
    (inflate : List (BitVec 8) → Nat → Option (List (BitVec 8))) (sectionInfo : FileSectionInfo) :
    Except LoadError SafeBuffer :=
  match source.seek sectionInfo.fileOffset with
  | none => fail .kIOError "Failed to seek to section data."
  | some source =>
    match source.read sectionInfo.fileSize with
    | .error e => .error e
    | .ok (tempBuffer, _) =>
      if sectionInfo.inflatedSize ≠ 0 then
        match inflate tempBuffer sectionInfo.inflatedSize with
        | none => fail .kBadData "Error uncompressing section data."
        | some buffer => .ok buffer
      else .ok tempBuffer

/-- A `FileSectionInfo` as the table stores it: four little-endian `uint32_t`s. -/
def parseSectionInfo (bytes : List (BitVec 8)) : FileSectionInfo :=
  let word (i : Nat) := (ByteMemory.ofList bytes).loadLE (4 * i) 4
  ⟨word 0, word 1, word 2, word 3⟩

/-- `FileHeader::InvalidHeaderMessage`.  Its version test compares with `kProfileVersion` twice. -/
def invalidHeaderMessage {α : Type} (magic version : List (BitVec 8)) (fileSectionCount : Nat) :
    Except LoadError α :=
  if magic ≠ kProfileMagic then fail .kBadMagic "Profile missing magic."
  else if version ≠ kProfileVersion ∧ version ≠ kProfileVersion then
    fail .kVersionMismatch "Profile version mismatch."
  else if fileSectionCount = 0 then fail .kBadData "Missing mandatory dex files section."
  else fail .kBadData "Too many sections."

/-- One round of the `for` loop of `LoadInternal` over the sections after the first: the `switch`
on the section's type, with the profile and `extra_descriptors_remap`. -/
def readSection (source : ProfileSource)
    (inflate : List (BitVec 8) → Nat → Option (List (BitVec 8))) (mergeClasses : Bool)
    (dexProfileIndexRemap : List Nat) (sectionInfo : FileSectionInfo)
    (acc : ProfileCompilationInfo × List Nat) :
    Except LoadError (ProfileCompilationInfo × List Nat) :=
  let (p, extraDescriptorsRemap) := acc
  if sectionInfo.type = kDexFiles then fail .kBadData "Unsupported additional dex files section."
  else if sectionInfo.type = kExtraDescriptors then
    match readSectionData source inflate sectionInfo with
    | .error e => .error e
    | .ok buffer => readExtraDescriptorsSection p buffer extraDescriptorsRemap
  else if sectionInfo.type = kClasses then
    -- skipped when all dex files were filtered out
    if p.info ≠ [] ∧ mergeClasses then
      match readSectionData source inflate sectionInfo with
      | .error e => .error e
      | .ok buffer =>
        match readClassesSection p buffer dexProfileIndexRemap extraDescriptorsRemap with
        | .error e => .error e
        | .ok p => .ok (p, extraDescriptorsRemap)
    else .ok (p, extraDescriptorsRemap)
  else if sectionInfo.type = kMethods then
    if p.info ≠ [] then
      match readSectionData source inflate sectionInfo with
      | .error e => .error e
      | .ok buffer =>
        match readMethodsSection p buffer dexProfileIndexRemap extraDescriptorsRemap with
        | .error e => .error e
        | .ok p => .ok (p, extraDescriptorsRemap)
    else .ok (p, extraDescriptorsRemap)
  -- an unknown section is skipped
  else .ok (p, extraDescriptorsRemap)

/-- The `for` loop of `LoadInternal` over the sections after the first. -/
def readSections (source : ProfileSource)
    (inflate : List (BitVec 8) → Nat → Option (List (BitVec 8))) (mergeClasses : Bool)
    (dexProfileIndexRemap : List Nat) :
    List FileSectionInfo → ProfileCompilationInfo × List Nat →
      Except LoadError (ProfileCompilationInfo × List Nat)
  | [], acc => .ok acc
  | sectionInfo :: sectionInfos, acc =>
    match readSection source inflate mergeClasses dexProfileIndexRemap sectionInfo acc with
    | .error e => .error e
    | .ok acc => readSections source inflate mergeClasses dexProfileIndexRemap sectionInfos acc

/-- The loop that adds the sections' memory sizes to `uncompressed_data_size`, a `uint32_t`. -/
def addMemSizes (uncompressedDataSize : Nat) : List FileSectionInfo → Except LoadError Nat
  | [] => .ok uncompressedDataSize
  | sectionInfo :: sectionInfos =>
    if sectionInfo.memSize > 2 ^ 32 - 1 - uncompressedDataSize then
      fail .kBadData "Total memory size overflow."
    else addMemSizes (uncompressedDataSize + sectionInfo.memSize) sectionInfos

/-- `LoadInternal` on a memory-mapped source. -/
def loadInternal (p : ProfileCompilationInfo) (bytes : List (BitVec 8))
    (inflate : List (BitVec 8) → Nat → Option (List (BitVec 8))) (mergeClasses : Bool)
    (filterFn : String → Nat → Bool) : Except LoadError ProfileCompilationInfo :=
  -- an empty profile is allowed
  if bytes = [] then .ok p
  else
    let source : ProfileSource := ⟨bytes, 0⟩
    match source.read fileHeaderSize with
    | .error e => .error e
    | .ok (header, source) =>
      let magic := header.take 4
      let version := (header.drop 4).take 4
      let fileSectionCount := (ByteMemory.ofList header).loadLE 8 4
      if !(magic = kProfileMagic ∧ (version = kProfileVersion ∨ version = kProfileVersionForBootImage) ∧
          fileSectionCount ≠ 0 ∧ fileSectionCount ≤ kMaxFileSectionCount) then
        invalidHeaderMessage magic version fileSectionCount
      else if version ≠ (if p.forBootImage then kProfileVersionForBootImage else kProfileVersion) then
        fail .kMergeError
          (if p.forBootImage then "Expected boot profile, got app profile."
            else "Expected app profile, got boot profile.")
      else
        let sectionCount := fileSectionCount
        let uncompressedDataSize := fileHeaderSize + sectionCount * fileSectionInfoSize
        if uncompressedDataSize > getSizeErrorThresholdBytes p then fail .kBadData ""
        else
          match source.read (sectionCount * fileSectionInfoSize) with
          | .error e => .error e
          | .ok (table, source) =>
            let sectionInfos := (List.range sectionCount).map fun i =>
              parseSectionInfo ((table.drop (fileSectionInfoSize * i)).take fileSectionInfoSize)
            match addMemSizes uncompressedDataSize sectionInfos with
            | .error e => .error e
            | .ok uncompressedDataSize =>
              if uncompressedDataSize > getSizeErrorThresholdBytes p then fail .kBadData ""
              else
                match sectionInfos with
                | [] => .error .outOfBounds
                | dexFilesSectionInfo :: sectionInfos =>
                  if dexFilesSectionInfo.type ≠ kDexFiles then
                    fail .kBadData "First section is not dex files section."
                  else
                    match readSectionData source inflate dexFilesSectionInfo with
                    | .error e => .error e
                    | .ok buffer =>
                      match readDexFilesSection p buffer filterFn with
                      | .error e => .error e
                      | .ok (p, dexProfileIndexRemap) =>
                        match readSections source inflate mergeClasses dexProfileIndexRemap
                            sectionInfos (p, []) with
                        | .error e => .error e
                        | .ok (p, _) => .ok p

end ProfileCompilationInfo

end Art
