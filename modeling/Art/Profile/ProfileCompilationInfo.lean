import Art.Lib.SortedMap
import Art.Lib.Word

/-!
# Profiles (`libprofile/profile/profile_compilation_info.h`, `.cc`)

A profile records, for each dex file it has seen, the classes that were loaded, the methods that
ran with their hotness flags, and for the hot methods the inline caches of their virtual calls.
Dex files are numbered first come first served in `info_` and found by their profile key.  A type
without a `TypeId` in its dex file is named by an extra descriptor: type index `num_type_ids + i`
stands for `extra_descriptors_[i]`, a list shared by all the dex files of the profile.

`MergeWith` folds another profile into this one.  It returns `false` at the first thing it cannot
represent and keeps what it merged until then: the model returns `.error` with that partial
profile, and `.ok` with the merged one.

`profile_key_map_` and `extra_descriptors_indexes_` index `info_` and `extra_descriptors_` by
content; the model searches the vectors.  The version bytes are one of two constants, for an app
and for a boot image profile, and the model keeps which one.  A `std::map` or `std::set` is the
sorted list of `Art.Lib.SortedMap`, and the hotness bitmap is its vector of bytes.
-/

namespace Art

open Word32

/-- `DexFile::kDexNoIndex16`. -/
def kDexNoIndex16 : Nat := 0xFFFF

namespace ProfileCompilationInfo

def kIndividualInlineCacheSize : Nat := 5

/-- `kMaxExtraDescriptors`. -/
def kMaxExtraDescriptors : Nat := kDexNoIndex16

/-- `MaxProfileIndex()`, the largest `uint16_t`. -/
def maxProfileIndex : Nat := 2 ^ 16 - 1

/-- `kBitsPerByte`. -/
def kBitsPerByte : Nat := 8

/-- `DexPcData`: the inline cache of one call site.  A megamorphic cache or one that misses
types keeps no classes. -/
structure DexPcData where
  isMissingTypes : Bool
  isMegamorphic : Bool
  classes : List Nat
  deriving DecidableEq, Repr

namespace DexPcData

/-- A new cache: no class seen. -/
def empty : DexPcData := ⟨false, false, []⟩

/-- `AddClass`: a class not yet in the cache is added, unless it would be the
`kIndividualInlineCacheSize`-th, which makes the cache megamorphic. -/
def addClass (d : DexPcData) (typeIdx : Nat) : DexPcData :=
  if d.isMegamorphic || d.isMissingTypes then d
  else if SortedSet.lowerBound d.classes typeIdx = some typeIdx then d
  else if d.classes.length + 1 ≥ kIndividualInlineCacheSize then
    { d with isMegamorphic := true, classes := [] }
  else { d with classes := SortedSet.insert typeIdx d.classes }

def setIsMegamorphic (d : DexPcData) : DexPcData :=
  if d.isMissingTypes then d else { d with isMegamorphic := true, classes := [] }

def setIsMissingTypes (_ : DexPcData) : DexPcData :=
  { isMegamorphic := false, isMissingTypes := true, classes := [] }

end DexPcData

/-- `InlineCacheMap`: dex pc to inline cache. -/
abbrev InlineCacheMap := List (Nat × DexPcData)

/-- `MethodMap`: method index to the inline caches of the method. -/
abbrev MethodMap := List (Nat × InlineCacheMap)

namespace MethodHotness

def kFlagFirst : Nat := 1 <<< 0
def kFlagHot : Nat := 1 <<< 0
def kFlagStartup : Nat := 1 <<< 1
def kFlagPostStartup : Nat := 1 <<< 2
def kFlagLastRegular : Nat := 1 <<< 2
def kFlagLastBoot : Nat := 1 <<< 15

end MethodHotness

/-- `MethodHotness`: the flags of a method, and its inline caches if it is hot. -/
structure MethodHotness where
  inlineCacheMap : Option InlineCacheMap
  flags : Nat
  deriving DecidableEq, Repr

/-- `DexFileData`, without its allocator; `method_bitmap` is a view of `bitmap_storage`. -/
structure DexFileData where
  profileKey : String
  profileIndex : Nat
  checksum : Nat
  methodMap : MethodMap
  classSet : List Nat
  numTypeIds : Nat
  numMethodIds : Nat
  bitmapStorage : List Nat
  isForBootImage : Bool
  deriving DecidableEq, Repr

namespace DexFileData

open MethodHotness

/-- `FlagBitmapIndex`: the flags other than `kFlagHot` in order, from `kFlagStartup` on. -/
def flagBitmapIndex (flag : Nat) : Nat := Nat.log2 flag - 1

def computeBitmapBits (isForBootImage : Bool) (numMethodIds : Nat) : Nat :=
  let flagBitmapIndex := flagBitmapIndex (if isForBootImage then kFlagLastBoot else kFlagLastRegular)
  numMethodIds * (flagBitmapIndex + 1)

def computeBitmapStorage (isForBootImage : Bool) (numMethodIds : Nat) : Nat :=
  (computeBitmapBits isForBootImage numMethodIds + kBitsPerByte - 1) / kBitsPerByte

/-- The `DexFileData` constructor: no method, no class, an empty bitmap. -/
def create (key : String) (locationChecksum index numTypes numMethods : Nat)
    (forBootImage : Bool) : DexFileData where
  profileKey := key
  profileIndex := index
  checksum := locationChecksum
  methodMap := []
  classSet := []
  numTypeIds := numTypes
  numMethodIds := numMethods
  bitmapStorage := List.replicate (computeBitmapStorage forBootImage numMethods) 0
  isForBootImage := forBootImage

/-- `ForMethodBitmapHotnessFlags`: the flags from `kFlagFirst` to the last one of the profile's
kind, without `kFlagHot`, which the bitmap does not store. -/
def forMethodBitmapHotnessFlags (isForBootImage : Bool) : List Nat :=
  let lastFlag := if isForBootImage then kFlagLastBoot else kFlagLastRegular
  ((List.range (Nat.log2 lastFlag + 1)).map (1 <<< ·)).filter (· ≠ kFlagHot)

/-- `MethodFlagBitmapIndex`: one bitmap of all methods per flag. -/
def methodFlagBitmapIndex (d : DexFileData) (flag methodIndex : Nat) : Nat :=
  methodIndex + flagBitmapIndex flag * d.numMethodIds

/-- `method_bitmap.LoadBit`, least significant bit of each byte first. -/
def loadBit (d : DexFileData) (index : Nat) : Bool :=
  (d.bitmapStorage.getD (index / kBitsPerByte) 0).testBit (index % kBitsPerByte)

/-- `GetHotnessInfo`: the flags stored in the bitmap, and `kFlagHot` with the inline caches for a
method of `method_map`. -/
def getHotnessInfo (d : DexFileData) (dexMethodIndex : Nat) : MethodHotness :=
  let flags := (forMethodBitmapHotnessFlags d.isForBootImage).foldl (fun flags flag =>
    if d.loadBit (d.methodFlagBitmapIndex flag dexMethodIndex) then flags ||| flag else flags) 0
  match d.methodMap.lookup dexMethodIndex with
  | some inlineCacheMap => ⟨some inlineCacheMap, flags ||| kFlagHot⟩
  | none => ⟨none, flags⟩

def containsClass (d : DexFileData) (typeIndex : Nat) : Bool := typeIndex ∈ d.classSet

/-- `MergeBitmap`: the bytes of `other` or-ed in. -/
def mergeBitmap (d other : DexFileData) : DexFileData :=
  { d with bitmapStorage := d.bitmapStorage.mapIdx fun i b => b ||| other.bitmapStorage.getD i 0 }

end DexFileData

end ProfileCompilationInfo

open ProfileCompilationInfo in
/-- `ProfileCompilationInfo`: the dex files in profile index order, the extra descriptors, and
whether its version is the boot image one. -/
structure ProfileCompilationInfo where
  info : List DexFileData
  extraDescriptors : List String
  forBootImage : Bool
  deriving DecidableEq, Repr

namespace ProfileCompilationInfo

/-- A new profile of the given kind. -/
def create (forBootImage : Bool) : ProfileCompilationInfo := ⟨[], [], forBootImage⟩

def sameVersion (p other : ProfileCompilationInfo) : Bool := p.forBootImage == other.forBootImage

/-- The index of a profile key in `profile_key_map_`. -/
def findProfileIndex (p : ProfileCompilationInfo) (profileKey : String) : Option Nat :=
  p.info.findIdx? (·.profileKey == profileKey)

/-- `FindDexData` with `verify_checksum = false`. -/
def findDexData (p : ProfileCompilationInfo) (profileKey : String) : Option DexFileData :=
  p.info.find? (·.profileKey == profileKey)

/-- The checks `GetOrAddDexFileData` makes of the entry it found or added. -/
def checkDexFileData (d : DexFileData) (profileIndex checksum numTypeIds numMethodIds : Nat) :
    Option Nat :=
  if d.checksum ≠ checksum then none
  else if numTypeIds ≠ d.numTypeIds ∨ numMethodIds ≠ d.numMethodIds then none
  else some profileIndex

/-- `GetOrAddDexFileData`: the profile index of the key, a new entry for a new key unless there
are `MaxProfileIndex()` already; `none` for `nullptr`. -/
def getOrAddDexFileData (p : ProfileCompilationInfo) (profileKey : String)
    (checksum numTypeIds numMethodIds : Nat) : ProfileCompilationInfo × Option Nat :=
  match p.findProfileIndex profileKey with
  | some profileIndex =>
    match p.info[profileIndex]? with
    | some d => (p, checkDexFileData d profileIndex checksum numTypeIds numMethodIds)
    | none => (p, none)
  | none =>
    if p.info.length = maxProfileIndex then (p, none)
    else
      let d := DexFileData.create profileKey checksum p.info.length numTypeIds numMethodIds
        p.forBootImage
      ({ p with info := p.info ++ [d] },
        checkDexFileData d p.info.length checksum numTypeIds numMethodIds)

/-- `AddExtraDescriptor`: the index of the new descriptor, `kMaxExtraDescriptors` when full. -/
def addExtraDescriptor (p : ProfileCompilationInfo) (extraDescriptor : String) :
    ProfileCompilationInfo × Nat :=
  let newExtraDescriptorIndex := p.extraDescriptors.length
  if newExtraDescriptorIndex = kMaxExtraDescriptors then (p, kMaxExtraDescriptors)
  else ({ p with extraDescriptors := p.extraDescriptors ++ [extraDescriptor] },
    newExtraDescriptorIndex)

/-! ## `MergeWith` -/

/-- The type index here of a class of the other profile in a dex file of `numTypeIds` types: the
same below `numTypeIds`, above it the index of its extra descriptor here after `numTypeIds`;
`none` where a `uint16_t` cannot hold that. -/
def remapTypeIndex (numTypeIds : Nat) (extraDescriptorsRemap : List Nat) (typeIndex : Nat) :
    Option Nat :=
  if typeIndex < numTypeIds then some typeIndex
  else
    let newExtraDescriptorIndex :=
      extraDescriptorsRemap.getD (typeIndex - numTypeIds) kMaxExtraDescriptors
    if newExtraDescriptorIndex ≥ u32I ((kDexNoIndex16 : Int) - numTypeIds) then none
    else some ((numTypeIds + newExtraDescriptorIndex) % 2 ^ 16)

/-- One class of a cache of the other profile added to this one's. -/
def addRemappedClass (numTypeIds : Nat) (extraDescriptorsRemap : List Nat)
    (dexPcData : DexPcData) (typeIndex : Nat) : Except DexPcData DexPcData :=
  match remapTypeIndex numTypeIds extraDescriptorsRemap typeIndex with
  | some typeIndex => .ok (dexPcData.addClass typeIndex)
  | none => .error dexPcData

/-- The inline cache of one dex pc of the other profile merged into this one's. -/
def mergeDexPcData (numTypeIds : Nat) (extraDescriptorsRemap : List Nat)
    (dexPcData other : DexPcData) : Except DexPcData DexPcData :=
  if other.isMissingTypes then .ok dexPcData.setIsMissingTypes
  else if other.isMegamorphic then .ok dexPcData.setIsMegamorphic
  else other.classes.foldlM (addRemappedClass numTypeIds extraDescriptorsRemap) dexPcData

/-- The inline cache of one dex pc of the other profile merged in, added empty if missing. -/
def mergeDexPc (numTypeIds : Nat) (extraDescriptorsRemap : List Nat)
    (inlineCache : InlineCacheMap) (e : Nat × DexPcData) : Except InlineCacheMap InlineCacheMap :=
  SortedMap.updateE inlineCache e.1 DexPcData.empty
    (fun dexPcData => mergeDexPcData numTypeIds extraDescriptorsRemap dexPcData e.2)

/-- The inline caches of one method of the other profile merged in, dex pc by dex pc. -/
def mergeInlineCache (numTypeIds : Nat) (extraDescriptorsRemap : List Nat)
    (inlineCache other : InlineCacheMap) : Except InlineCacheMap InlineCacheMap :=
  other.foldlM (mergeDexPc numTypeIds extraDescriptorsRemap) inlineCache

/-- One class of a dex file of the other profile past `TypeIndex(num_type_ids)` added here, at the
index of its extra descriptor here after `numTypeIds`.  The loop does not test that the class is
at or above `numTypeIds`: it indexes the remap at the `uint32_t` difference, which an out-of-range
read past the remap's end would answer with `kMaxExtraDescriptors` in the model. -/
def insertRemappedClass (numTypeIds : Nat) (extraDescriptorsRemap : List Nat) (d : DexFileData)
    (typeIndex : Nat) : Except DexFileData DexFileData :=
  let newExtraDescriptorIndex :=
    extraDescriptorsRemap.getD (u32I ((typeIndex : Int) - numTypeIds)) kMaxExtraDescriptors
  if newExtraDescriptorIndex ≥ u32I ((kDexNoIndex16 : Int) - numTypeIds) then .error d
  else .ok { d with classSet :=
    SortedSet.insert ((numTypeIds + newExtraDescriptorIndex) % 2 ^ 16) d.classSet }

/-- The classes of a dex file of the other profile merged in: those below
`lower_bound(dex::TypeIndex(num_type_ids))` at once, then the rest one by one.  `TypeIndex` holds
a `uint16_t`, so the bound is `numTypeIds` cut to 16 bits. -/
def mergeClassSet (extraDescriptorsRemap : List Nat) (d other : DexFileData) :
    Except DexFileData DexFileData :=
  let numTypeIds := d.numTypeIds
  let classSet := (other.classSet.takeWhile (· < numTypeIds % 2 ^ 16)).foldl
    (fun classSet typeIndex => SortedSet.insert typeIndex classSet) d.classSet
  let d := { d with classSet := classSet }
  (other.classSet.dropWhile (· < numTypeIds % 2 ^ 16)).foldlM
    (insertRemappedClass numTypeIds extraDescriptorsRemap) d

/-- One hot method of a dex file of the other profile merged in, with its inline caches. -/
def mergeMethod (extraDescriptorsRemap : List Nat) (d : DexFileData) (e : Nat × InlineCacheMap) :
    Except DexFileData DexFileData :=
  -- `FindOrAddHotMethod` returns `nullptr` for a method index out of range
  if e.1 ≥ d.numMethodIds then .error d
  else
    match SortedMap.updateE d.methodMap e.1 []
        (fun inlineCache => mergeInlineCache d.numTypeIds extraDescriptorsRemap inlineCache e.2) with
    | .ok methodMap => .ok { d with methodMap := methodMap }
    | .error methodMap => .error { d with methodMap := methodMap }

/-- The hot methods of a dex file of the other profile merged in. -/
def mergeMethods (extraDescriptorsRemap : List Nat) (d other : DexFileData) :
    Except DexFileData DexFileData :=
  other.methodMap.foldlM (mergeMethod extraDescriptorsRemap) d

/-- One dex file of the other profile merged in: classes, methods, then the bitmap. -/
def mergeDexFileData (mergeClasses : Bool) (extraDescriptorsRemap : List Nat)
    (d other : DexFileData) : Except DexFileData DexFileData := do
  let d ← if mergeClasses then mergeClassSet extraDescriptorsRemap d other else pure d
  let d ← mergeMethods extraDescriptorsRemap d other
  pure (d.mergeBitmap other)

/-- One dex file of the other profile found or added here, and its profile index here. -/
def remapDexFile (acc : ProfileCompilationInfo × List Nat) (other : DexFileData) :
    Except ProfileCompilationInfo (ProfileCompilationInfo × List Nat) :=
  match acc.1.getOrAddDexFileData other.profileKey other.checksum other.numTypeIds
      other.numMethodIds with
  | (p, some profileIndex) => .ok (p, acc.2 ++ [profileIndex])
  | (p, none) => .error p

/-- The first loop of `MergeWith`: the profile index here of each dex file of the other profile. -/
def remapDexFiles (p : ProfileCompilationInfo) (others : List DexFileData) :
    Except ProfileCompilationInfo (ProfileCompilationInfo × List Nat) :=
  others.foldlM remapDexFile (p, [])

/-- One extra descriptor of the other profile found or added here, and its index here. -/
def remapExtraDescriptor (acc : ProfileCompilationInfo × List Nat) (extraDescriptor : String) :
    Except ProfileCompilationInfo (ProfileCompilationInfo × List Nat) :=
  match acc.1.extraDescriptors.idxOf? extraDescriptor with
  | some index => .ok (acc.1, acc.2 ++ [index])
  | none =>
    let added := acc.1.addExtraDescriptor extraDescriptor
    if added.2 = kMaxExtraDescriptors then .error added.1
    else .ok (added.1, acc.2 ++ [added.2])

/-- The second loop: the index here of each extra descriptor of the other profile. -/
def remapExtraDescriptors (p : ProfileCompilationInfo) (others : List String) :
    Except ProfileCompilationInfo (ProfileCompilationInfo × List Nat) :=
  others.foldlM remapExtraDescriptor (p, [])

/-- The dex file at `index` updated by `f`, which keeps what it did when it stops early. -/
def updateDexFileData (p : ProfileCompilationInfo) (index : Nat)
    (f : DexFileData → Except DexFileData DexFileData) :
    Except ProfileCompilationInfo ProfileCompilationInfo :=
  match p.info[index]? with
  | some d =>
    match f d with
    | .ok d => .ok { p with info := p.info.set index d }
    | .error d => .error { p with info := p.info.set index d }
  | none => .ok p

/-- The data of one dex file of the other profile merged into its dex file here. -/
def mergeDexFile (mergeClasses : Bool) (dexProfileIndexRemap extraDescriptorsRemap : List Nat)
    (p : ProfileCompilationInfo) (other : DexFileData) :
    Except ProfileCompilationInfo ProfileCompilationInfo :=
  updateDexFileData p (dexProfileIndexRemap.getD other.profileIndex 0)
    (fun d => mergeDexFileData mergeClasses extraDescriptorsRemap d other)

/-- The last loop: the data of each dex file of the other profile merged in. -/
def mergeDexFiles (mergeClasses : Bool) (dexProfileIndexRemap extraDescriptorsRemap : List Nat)
    (p : ProfileCompilationInfo) (others : List DexFileData) :
    Except ProfileCompilationInfo ProfileCompilationInfo :=
  others.foldlM (mergeDexFile mergeClasses dexProfileIndexRemap extraDescriptorsRemap) p

/-- `MergeWith(other, merge_classes)`. -/
def mergeWith (p other : ProfileCompilationInfo) (mergeClasses : Bool) :
    Except ProfileCompilationInfo ProfileCompilationInfo :=
  if !p.sameVersion other then .error p
  -- every checksum is compared before anything is added
  else if other.info.any (fun otherDexData => match p.findDexData otherDexData.profileKey with
      | some d => d.checksum != otherDexData.checksum
      | none => false) then .error p
  else
    remapDexFiles p other.info >>= fun dexFiles =>
    remapExtraDescriptors dexFiles.1 other.extraDescriptors >>= fun extraDescriptors =>
    mergeDexFiles mergeClasses dexFiles.2 extraDescriptors.2 extraDescriptors.1 other.info

end ProfileCompilationInfo

end Art
