import Art.Dex.Utf
import Art.Lib.Word

/-!
# `java.lang.String` with compression (`runtime/mirror/string.h`, `string.cc`, `string-alloc-inl.h`)

A string object holds `count_`, its length shifted left by one with the compression flag in bit 0
(`kCompressed = 0`), and one value per char: a byte when compressed, a `uint16_t` otherwise.  The
values are kept as one list; the flag says how wide they are in memory.

Every allocation path decides compressibility on its own; the object then holds the chars the
path copies in.  The byte and char arrays an allocation reads are the slices `[offset, offset +
length)` the Java caller has bounds-checked.
-/

namespace Art

open Word32

/-- `String::IsASCII`: `(c - 1u) < 0x7fu`, so `0` is not ASCII. -/
def isASCII (c : Nat) : Bool := u32 (c + 2 ^ 32 - 1) < 0x7f

def allASCII (chars : List Nat) : Bool := chars.all isASCII

/-- `AllASCIIExcept`. -/
def allASCIIExcept (chars : List Nat) (nonAscii : Nat) : Bool :=
  chars.all fun c => isASCII c || c == nonAscii

def getFlaggedCount (length : Nat) (compressible : Bool) : Nat :=
  (length <<< 1) ||| (if compressible then 0 else 1)

def getLengthFromCount (count : Nat) : Nat := count >>> 1

def isCompressedCount (count : Nat) : Bool := count % 2 = 0

theorem getFlaggedCount_eq (length : Nat) (compressible : Bool) :
    getFlaggedCount length compressible = 2 * length + (if compressible then 0 else 1) := by
  unfold getFlaggedCount
  rw [← Nat.shiftLeft_add_eq_or_of_lt (by split <;> decide), Nat.shiftLeft_eq]
  omega

theorem getLengthFromCount_getFlaggedCount (length : Nat) (compressible : Bool) :
    getLengthFromCount (getFlaggedCount length compressible) = length := by
  rw [getFlaggedCount_eq, getLengthFromCount, Nat.shiftRight_eq_div_pow]
  split <;> omega

theorem isCompressedCount_getFlaggedCount (length : Nat) (compressible : Bool) :
    isCompressedCount (getFlaggedCount length compressible) = compressible := by
  rw [getFlaggedCount_eq, isCompressedCount]
  cases compressible <;> simp

/-- A `mirror::String`: `count_` and the chars, as many as `GetLength()` says. -/
structure MirrorString where
  count : Nat
  value : List Nat
  value_length : value.length = getLengthFromCount count

namespace MirrorString

def getLength (s : MirrorString) : Nat := getLengthFromCount s.count

def isCompressed (s : MirrorString) : Bool := isCompressedCount s.count

/-- The string the object stands for: its chars, bytes widened to `uint16_t`. -/
def chars (s : MirrorString) : List Nat := s.value

/-- Compressed exactly when every char is ASCII: the invariant the allocation paths keep and
`Equals` relies on. -/
def Canonical (s : MirrorString) : Prop := s.isCompressed = allASCII s.value

/-- `String::Alloc` with the visitor's count and the values it writes. -/
def alloc (length : Nat) (compressible : Bool) (value : List Nat) (h : value.length = length) :
    MirrorString where
  count := getFlaggedCount length compressible
  value := value
  value_length := by rw [getLengthFromCount_getFlaggedCount, h]

end MirrorString

open MirrorString

def allocEmptyString : MirrorString := alloc 0 true [] rfl

def allocFromUtf16 (utf16 : List Nat) : MirrorString :=
  let compressible := allASCII utf16
  alloc utf16.length compressible (if compressible then utf16.map (· % 256) else utf16)
    (by split <;> simp)

/-- `AllocFromByteArray(byte_length, array, offset, high_byte)` on the slice `src`: a compressed
string copies the bytes, an uncompressed one stores `(high_byte << 8) + byte`. -/
def allocFromByteArray (src : List Nat) (highByte : Nat) : MirrorString :=
  let highByte := highByte % 256
  let compressible := allASCII src && highByte = 0
  alloc src.length compressible
    (if compressible then src.map (· % 256) else src.map fun b => ((highByte <<< 8) + b % 256) % 2 ^ 16)
    (by split <;> simp)

def allocFromCharArray (src : List Nat) : MirrorString :=
  let compressible := allASCII src
  alloc src.length compressible (if compressible then src.map (· % 256) else src)
    (by split <;> simp)

/-- `AllocFromString(string_length, string, offset)`: a slice of a compressed string is
compressed without a scan. -/
def allocFromString (string : MirrorString) (offset stringLength : Nat) : MirrorString :=
  let src := (string.value.drop offset).take stringLength
  let compressible := if string.isCompressed then true else allASCII src
  alloc src.length compressible
    (if string.isCompressed then src else if compressible then src.map (· % 256) else src)
    (by split <;> (try split) <;> simp)

/-- `DoConcat`: compressed when both halves are. -/
def doConcat (a b : MirrorString) : MirrorString :=
  let compressible := a.isCompressed && b.isCompressed
  alloc (a.getLength + b.getLength) compressible (a.value ++ b.value)
    (by simp [getLength, a.value_length, b.value_length])

/-- `DoReplace(src, old_c, new_c)`, which `String.replace` calls when `old_c` occurs. -/
def doReplace (src : MirrorString) (oldC newC : Nat) : MirrorString :=
  let compressible := isASCII newC &&
    (src.isCompressed || (!isASCII oldC && allASCIIExcept src.value oldC))
  alloc src.getLength compressible (src.value.map fun c => if oldC ≠ c then c else newC)
    (by simp [getLength, src.value_length])

/-- `AllocFromModifiedUtf8(utf16_length, utf8_data_in, utf8_length)`: compressed when the byte
count is the char count, and then the bytes are copied as they are; otherwise the chars
`ConvertModifiedUtf8ToUtf16` writes into the `utf16_length` chars of the new string. -/
def allocFromModifiedUtf8 (utf16Length : Nat) (utf8 : List Nat) : MirrorString :=
  let compressible := utf16Length = utf8.length
  alloc utf16Length compressible
    (List.take utf16Length ((if compressible then utf8 else convertModifiedUtf8ToUtf16Sized utf8) ++
      List.replicate utf16Length 0))
    (by simp)

namespace MirrorString

/-- `String::Equals(ObjPtr<String>)`: the counts, flag included, then the values. -/
def equals (a b : MirrorString) : Bool :=
  if a.count ≠ b.count then false else a.value == b.value

/-- The first index below `n` where `lhs` and `rhs` differ, with `lhs[i] - rhs[i]` there; the
loops of `CompareTo` and the generic `MemCmp16`. -/
def charDiff (lhs rhs : List Nat) : Nat → Option Int
  | 0 => none
  | n + 1 =>
    match charDiff lhs rhs n with
    | some d => some d
    | none =>
      if lhs.getD n 0 = rhs.getD n 0 then none
      else some ((lhs.getD n 0 : Int) - rhs.getD n 0)

/-- `String::CompareTo`: a compressed and an uncompressed side are compared as `compressed -
uncompressed`, and the sign flipped when the compressed side is the right one. -/
def compareTo (lhs rhs : MirrorString) : Int :=
  let countDiff : Int := (lhs.getLength : Int) - rhs.getLength
  let minCount := if countDiff < 0 then lhs.getLength else rhs.getLength
  let diff :=
    if lhs.isCompressed && rhs.isCompressed then charDiff lhs.value rhs.value minCount
    else if lhs.isCompressed || rhs.isCompressed then
      let compressed := if lhs.isCompressed then lhs.value else rhs.value
      let uncompressed := if lhs.isCompressed then rhs.value else lhs.value
      (charDiff compressed uncompressed minCount).map fun d => if lhs.isCompressed then d else -d
    else charDiff lhs.value rhs.value minCount
  diff.getD countDiff

/-- `ComputeUtf16Hash`: `hash * 31 + c` in `uint32_t`, read as `int32_t`. -/
def computeUtf16Hash (chars : List Nat) : Int :=
  let h := chars.foldl (fun hash c => u32 (hash * 31 + c)) 0
  if h < 2 ^ 31 then h else (h : Int) - 2 ^ 32

/-- `String::GetHashCode`: the cached hash is the computed one. -/
def getHashCode (s : MirrorString) : Int := computeUtf16Hash s.value

/-- `String::Equals(const char* modified_utf8)`: a compressed string compares the bytes; an
uncompressed one decodes the C string sequence by sequence, giving up at a decoded `0`. -/
def equalsModifiedUtf8Loop : Nat → List Nat → List Nat → Bool
  | 0, _, _ => false
  | fuel + 1, value, utf8 =>
    match value with
    | [] => utf8.headD 0 = 0
    | v :: rest =>
      let ch := getUtf16FromUtf8 utf8
      if ch.1 = 0 then false
      else if getLeadingUtf16Char ch.1 ≠ v then false
      else
        let trailing := getTrailingUtf16Char ch.1
        if trailing ≠ 0 then
          match rest with
          | [] => false
          | v2 :: rest' => if v2 ≠ trailing then false else equalsModifiedUtf8Loop fuel rest' ch.2
        else equalsModifiedUtf8Loop fuel rest ch.2

/-- `strlen`. -/
def strlen (s : List Nat) : Nat := (s.takeWhile (· ≠ 0)).length

def equalsModifiedUtf8 (s : MirrorString) (modifiedUtf8 : List Nat) : Bool :=
  if s.isCompressed then strlen modifiedUtf8 = s.getLength && modifiedUtf8.take s.getLength == s.value
  else equalsModifiedUtf8Loop (s.value.length + 1) s.value modifiedUtf8

end MirrorString

end Art
