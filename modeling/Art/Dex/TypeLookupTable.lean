import Art.Lib.LinkedChain
import Art.Base.BitMemory
import Art.Dex.Utf

/-!
# The type lookup table (`libdexfile/dex/type_lookup_table.cc`, `type_lookup_table.h`)

The table maps a class descriptor to the index of its class definition.  It has `2 ^ mask_bits`
entries; an entry holds the offset of the descriptor's string data (`0` for an empty entry) and
one word `data_` that packs, from the bottom, the delta to the next entry of its chain, the class
definition's index and the bits of the descriptor's hash that the entry's position does not give.

`Create` puts every class definition at the position given by the low bits of its hash if that is
free, and in a second stage appends the others, one by one, to the chain that starts there, in the
next free entry after the chain's last.  `Lookup` walks the chain from the hash's position, which
may be the middle of another chain, comparing hash bits first and strings after.

Positions are `uint32_t` and the entries a function of them.  The dex file is what `Create` reads
of it: the class definitions' type indices, the type and string ids, and the string data at an
offset, which `GetStringData` finds past the string's ULEB128 length; the table reads the same
string data through `dex_data_begin_`.  Both loops of `Create` and both of `Lookup` are unbounded;
each is given the table's size as fuel, and running out of it is `none`.  `Lookup` shifts a
`uint32_t` by `2 * mask_bits`, which is undefined for `mask_bits = 16`: the result is then `none`.
-/

namespace Art

/-- What `TypeLookupTable::Create` reads of a dex file. -/
structure DexFile where
  /-- `class_idx_` of each class definition. -/
  classDefs : List Nat
  /-- `descriptor_idx_` of each type id. -/
  typeIds : Nat → Nat
  /-- `string_data_off_` of each string id. -/
  stringIds : Nat → BitVec 32
  /-- The MUTF-8 bytes at an offset of the data section, past their ULEB128 length. -/
  stringData : BitVec 32 → List Nat

namespace DexFile

/-- `NumClassDefs()`. -/
def numClassDefs (dex : DexFile) : Nat := dex.classDefs.length

/-- `GetStringId(GetTypeId(GetClassDef(i).class_idx_).descriptor_idx_).string_data_off_`. -/
def descriptorOffset (dex : DexFile) (classDefIdx : Nat) : BitVec 32 :=
  dex.stringIds (dex.typeIds (dex.classDefs.getD classDefIdx 0))

/-- `GetStringData` of class definition `i`'s descriptor. -/
def descriptor (dex : DexFile) (classDefIdx : Nat) : List Nat :=
  dex.stringData (dex.descriptorOffset classDefIdx)

end DexFile

/-- `dex::kDexNoIndex`. -/
def kDexNoIndex : BitVec 32 := 0xFFFFFFFF

/-- `ModifiedUtf8StringEquals`. -/
def modifiedUtf8StringEquals (lhs rhs : List Nat) : Bool :=
  compareModifiedUtf8ToModifiedUtf8AsUtf16CodePointValues lhs rhs == 0

namespace TypeLookupTable

/-- `TypeLookupTable::Entry`. -/
structure Entry where
  strOffset : BitVec 32
  data : BitVec 32
  deriving DecidableEq, Repr

namespace Entry

/-- `Entry::GetMask(mask_bits)`: the low `mask_bits` bits. -/
def getMask (maskBits : Nat) : BitVec 32 := ~~~(BitVec.allOnes 32 <<< maskBits)

/-- `Entry()`, the empty entry. -/
def empty : Entry := ⟨0, 0⟩

/-- `Entry(str_offset, hash, class_def_index, mask_bits)`, with no next entry. -/
def make (strOffset hash classDefIndex : BitVec 32) (maskBits : Nat) : Entry :=
  ⟨strOffset, ((hash &&& ~~~getMask maskBits) ||| classDefIndex) <<< maskBits⟩

/-- `Entry::SetNextPosDelta`. -/
def setNextPosDelta (e : Entry) (nextPosDelta : BitVec 32) : Entry :=
  { e with data := e.data ||| nextPosDelta }

def isEmpty (e : Entry) : Bool := e.strOffset == 0

def getNextPosDelta (e : Entry) (maskBits : Nat) : BitVec 32 := e.data &&& getMask maskBits

def isLast (e : Entry) (maskBits : Nat) : Bool := e.getNextPosDelta maskBits == 0

def getClassDefIdx (e : Entry) (maskBits : Nat) : BitVec 32 :=
  (e.data >>> maskBits) &&& getMask maskBits

/-- `Entry::GetHashBits`; undefined for `mask_bits = 16`, where `Lookup` stops first. -/
def getHashBits (e : Entry) (maskBits : Nat) : BitVec 32 := e.data >>> (2 * maskBits)

end Entry

open Entry

/-- `TypeLookupTable::SupportedSize`. -/
def supportedSize (numClassDefs : Nat) : Bool := numClassDefs ≠ 0 && numClassDefs ≤ 65535

/-- `TypeLookupTable::CalculateMaskBits`. -/
def calculateMaskBits (numClassDefs : Nat) : Nat :=
  if supportedSize numClassDefs then minimumBitsToStore (numClassDefs - 1) else 0

/-- The next entry of a chain: `(pos + GetNextPosDelta()) & mask`, none after the last. -/
def nextPos (maskBits : Nat) (entries : BitVec 32 → Entry) (pos : BitVec 32) :
    Option (BitVec 32) :=
  let entry := entries pos
  if entry.isLast maskBits then none
  else some ((pos + entry.getNextPosDelta maskBits) &&& getMask maskBits)

/-- The probe of `Create`'s second stage for an empty entry after `insert_pos`. -/
def findEmptyLoop (entries : BitVec 32 → Entry) (mask : BitVec 32) :
    Nat → BitVec 32 → Option (BitVec 32)
  | 0, _ => none
  | fuel + 1, insertPos =>
    let insertPos := (insertPos + 1) &&& mask
    if (entries insertPos).isEmpty then some insertPos
    else findEmptyLoop entries mask fuel insertPos

/-- The first stage of `Create` for one class definition: it goes to its initial position if
that is empty, and is left to the second stage otherwise. -/
def placeInitial (dex : DexFile) (maskBits : Nat) (acc : (BitVec 32 → Entry) × List Nat)
    (classDefIdx : Nat) : (BitVec 32 → Entry) × List Nat :=
  let (entries, conflictClassDefs) := acc
  let hash := computeModifiedUtf8Hash (dex.descriptor classDefIdx)
  let pos := hash &&& getMask maskBits
  if (entries pos).isEmpty then
    (Function.update entries pos
      (Entry.make (dex.descriptorOffset classDefIdx) hash (BitVec.ofNat 32 classDefIdx) maskBits),
      conflictClassDefs)
  else (entries, conflictClassDefs ++ [classDefIdx])

/-- The second stage of `Create` for one class definition: find the last entry of the chain at
its initial position, and the next empty entry after it, and link the two. -/
def insertConflict (dex : DexFile) (maskBits : Nat) (entries : BitVec 32 → Entry)
    (classDefIdx : Nat) : Option (BitVec 32 → Entry) := do
  let mask := getMask maskBits
  let hash := computeModifiedUtf8Hash (dex.descriptor classDefIdx)
  -- Find the last entry in the chain.
  let some tailPos ← LinkedChain.find (nextPos maskBits entries)
    (fun pos => (entries pos).isLast maskBits) (2 ^ maskBits) (hash &&& mask) | none
  -- Find an empty entry for insertion.
  let insertPos ← findEmptyLoop entries mask (2 ^ maskBits) tailPos
  -- Insert and chain the new entry.
  let entries := Function.update entries insertPos
    (Entry.make (dex.descriptorOffset classDefIdx) hash (BitVec.ofNat 32 classDefIdx) maskBits)
  return Function.update entries tailPos
    ((entries tailPos).setNextPosDelta ((insertPos - tailPos) &&& mask))

end TypeLookupTable

open TypeLookupTable TypeLookupTable.Entry

/-- A `TypeLookupTable`: the string data it reads through `dex_data_begin_`, `mask_bits_`, and
`entries_`, `none` for the invalid table. -/
structure TypeLookupTable where
  stringData : BitVec 32 → List Nat
  maskBits : Nat
  entries : Option (BitVec 32 → Entry)

namespace TypeLookupTable

/-- `Valid()`. -/
def valid (t : TypeLookupTable) : Bool := t.entries.isSome

/-- `TypeLookupTable::Create(dex_file)`. -/
def create (dex : DexFile) : Option TypeLookupTable := do
  if !supportedSize dex.numClassDefs then
    return ⟨dex.stringData, 0, none⟩
  let maskBits := calculateMaskBits dex.numClassDefs
  -- The first stage. Put elements on their initial positions.
  let (entries, conflictClassDefs) :=
    (List.range dex.numClassDefs).foldl (placeInitial dex maskBits) (fun _ => Entry.empty, [])
  -- The second stage. Put the others into the nearest free cells and link them together.
  let entries ← conflictClassDefs.foldlM (insertConflict dex maskBits) entries
  return ⟨dex.stringData, maskBits, some entries⟩

/-- `TypeLookupTable::Lookup(str, hash)`. -/
def lookup (t : TypeLookupTable) (str : List Nat) (hash : BitVec 32) : Option (BitVec 32) := do
  let entries ← t.entries
  let mask := getMask t.maskBits
  let pos := hash &&& mask
  if (entries pos).isEmpty then return kDexNoIndex
  -- `(hash << mask_bits_) >> (2 * mask_bits_)` shifts by the word's width
  if 32 ≤ 2 * t.maskBits then none
  let comparedHashBits := (hash <<< t.maskBits) >>> (2 * t.maskBits)
  let next := nextPos t.maskBits entries
  -- Look for the partial hash match first, even if traversing the wrong bucket's chain.
  let some pos ← LinkedChain.find next
    (fun pos => comparedHashBits == (entries pos).getHashBits t.maskBits) (2 ^ t.maskBits) pos
    | return kDexNoIndex
  let entry := entries pos
  let firstCheckedStr := t.stringData entry.strOffset
  if modifiedUtf8StringEquals str firstCheckedStr then return entry.getClassDefIdx t.maskBits
  if entry.isLast t.maskBits then return kDexNoIndex
  -- Check if we're traversing the right bucket.
  if (computeModifiedUtf8Hash firstCheckedStr ^^^ hash) &&& mask ≠ 0 then return kDexNoIndex
  -- Continue looking for the string in the rest of the chain.
  let some pos ← LinkedChain.find next
    (fun pos => comparedHashBits == (entries pos).getHashBits t.maskBits &&
      modifiedUtf8StringEquals str (t.stringData (entries pos).strOffset))
    (2 ^ t.maskBits) ((pos + entry.getNextPosDelta t.maskBits) &&& mask)
    | return kDexNoIndex
  return (entries pos).getClassDefIdx t.maskBits

end TypeLookupTable

end Art
