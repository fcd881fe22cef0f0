import Mathlib

/-!
# Modified UTF-8 (`libdexfile/dex/utf.cc`, `utf-inl.h`)

A NUL-terminated C string is the list of its bytes before the terminator; reading at or past the
end reads the terminator, `0`.  `getUtf16FromUtf8` decodes one sequence: one to three bytes give
one UTF-16 char, four bytes a surrogate pair packed as `leading | trailing << 16`.

The two comparators walk the strings sequence by sequence, with fuel for the length of the
first string: every step consumes at least one of its bytes.  `convertUtf16ToModifiedUtf8` is
the encoder the runtime uses for `java.lang.String`s, which writes a valid surrogate pair as one
four-byte sequence.
-/

namespace Art

/-- `GetUtf16FromUtf8`. -/
def getUtf16FromUtf8 (s : List Nat) : Nat × List Nat :=
  let one := s.headD 0
  if one &&& 0x80 = 0 then (one, s.drop 1)
  else
    let two := (s.drop 1).headD 0
    if one &&& 0x20 = 0 then (((one &&& 0x1f) <<< 6) ||| (two &&& 0x3f), s.drop 2)
    else
      let three := (s.drop 2).headD 0
      if one &&& 0x10 = 0 then
        (((one &&& 0x0f) <<< 12) ||| ((two &&& 0x3f) <<< 6) ||| (three &&& 0x3f), s.drop 3)
      else
        let four := (s.drop 3).headD 0
        let codePoint := ((one &&& 0x0f) <<< 18) ||| ((two &&& 0x3f) <<< 12) |||
          ((three &&& 0x3f) <<< 6) ||| (four &&& 0x3f)
        (((codePoint >>> 10) + 0xd7c0) &&& 0xffff ||| ((codePoint &&& 0x03ff) + 0xdc00) <<< 16,
          s.drop 4)

def getLeadingUtf16Char (maybePair : Nat) : Nat := maybePair % 2 ^ 16

def getTrailingUtf16Char (maybePair : Nat) : Nat := (maybePair >>> 16) % 2 ^ 16

/-- The loop of `CompareModifiedUtf8ToModifiedUtf8AsUtf16CodePointValues`. -/
def compareModifiedUtf8Loop : Nat → List Nat → List Nat → Int
  | 0, _, _ => 0
  | fuel + 1, a, b =>
    if a.headD 0 = 0 then (if b.headD 0 = 0 then 0 else -1)
    else if b.headD 0 = 0 then 1
    else
      let c1 := getUtf16FromUtf8 a
      let c2 := getUtf16FromUtf8 b
      if c1.1 = c2.1 then compareModifiedUtf8Loop fuel c1.2 c2.2
      else
        let leadingSurrogateDiff : Int :=
          (getLeadingUtf16Char c1.1 : Int) - getLeadingUtf16Char c2.1
        if leadingSurrogateDiff ≠ 0 then leadingSurrogateDiff
        else (getTrailingUtf16Char c1.1 : Int) - getTrailingUtf16Char c2.1

def compareModifiedUtf8ToModifiedUtf8AsUtf16CodePointValues (utf8₁ utf8₂ : List Nat) : Int :=
  compareModifiedUtf8Loop (utf8₁.length + 1) utf8₁ utf8₂

/-- The loop of `CompareModifiedUtf8ToUtf16AsCodePointValues`; the UTF-16 string is the list of
its `utf16_length` chars. -/
def compareModifiedUtf8ToUtf16Loop : Nat → List Nat → List Nat → Int
  | 0, _, _ => 0
  | fuel + 1, utf8, utf16 =>
    if utf8.headD 0 = 0 then (if utf16 = [] then 0 else -1)
    else
      match utf16 with
      | [] => 1
      | rhs :: utf16' =>
        let pair := getUtf16FromUtf8 utf8
        let lhs := getLeadingUtf16Char pair.1
        if lhs ≠ rhs then (if lhs > rhs then 1 else -1)
        else
          let lhs2 := getTrailingUtf16Char pair.1
          if lhs2 ≠ 0 then
            match utf16' with
            | [] => 1
            | rhs2 :: utf16'' =>
              if lhs2 ≠ rhs2 then (if lhs2 > rhs2 then 1 else -1)
              else compareModifiedUtf8ToUtf16Loop fuel pair.2 utf16''
          else compareModifiedUtf8ToUtf16Loop fuel pair.2 utf16'

def compareModifiedUtf8ToUtf16AsCodePointValues (utf8 utf16 : List Nat) : Int :=
  compareModifiedUtf8ToUtf16Loop (utf8.length + 1) utf8 utf16

/-- The 2- or 3-byte sequence `ConvertUtf16ToModifiedUtf8` writes for a char that is neither
ASCII nor the leading half of a valid pair. -/
def encodeUtf16Char (ch : Nat) : List Nat :=
  if ch > 0x07ff then [(ch >>> 12) ||| 0xe0, ((ch >>> 6) &&& 0x3f) ||| 0x80, (ch &&& 0x3f) ||| 0x80]
  else [(ch >>> 6) ||| 0xc0, (ch &&& 0x3f) ||| 0x80]

/-- The general loop of `ConvertUtf16ToModifiedUtf8`. -/
def convertUtf16ToModifiedUtf8Loop : List Nat → List Nat
  | [] => []
  | ch :: rest =>
    if 0 < ch ∧ ch ≤ 0x7f then ch :: convertUtf16ToModifiedUtf8Loop rest
    else
      match rest with
      | ch2 :: rest' =>
        if 0xd800 ≤ ch ∧ ch ≤ 0xdbff ∧ 0xdc00 ≤ ch2 ∧ ch2 ≤ 0xdfff then
          let codePoint := (ch <<< 10) + ch2 - 0x035fdc00
          [(codePoint >>> 18) ||| 0xf0, ((codePoint >>> 12) &&& 0x3f) ||| 0x80,
            ((codePoint >>> 6) &&& 0x3f) ||| 0x80, (codePoint &&& 0x3f) ||| 0x80] ++
            convertUtf16ToModifiedUtf8Loop rest'
        else encodeUtf16Char ch ++ convertUtf16ToModifiedUtf8Loop (ch2 :: rest')
      | [] => encodeUtf16Char ch

/-- `CountUtf8Bytes`: the length of the encoding. -/
def countUtf8Bytes : List Nat → Nat
  | [] => 0
  | ch :: rest =>
    if ch ≠ 0 ∧ ch < 0x80 then countUtf8Bytes rest + 1
    else if ch < 0x800 then countUtf8Bytes rest + 2
    else
      match rest with
      | ch2 :: rest' =>
        if 0xd800 ≤ ch ∧ ch < 0xdc00 ∧ 0xdc00 ≤ ch2 ∧ ch2 < 0xe000 then countUtf8Bytes rest' + 4
        else countUtf8Bytes (ch2 :: rest') + 3
      | [] => 3

/-- `ConvertUtf16ToModifiedUtf8(utf8_out, byte_count, utf16_in, char_count)`: when the byte
count equals the char count every char is taken to be ASCII and copied as a byte. -/
def convertUtf16ToModifiedUtf8 (byteCount : Nat) (chars : List Nat) : List Nat :=
  if byteCount = chars.length then chars.map (· % 256)
  else convertUtf16ToModifiedUtf8Loop chars

/-- The UTF-16 chars of a NUL-terminated string, as `ConvertModifiedUtf8ToUtf16` writes them:
the leading char of each sequence, then its trailing char when that is not `0`. -/
def decodeModifiedUtf8Loop : Nat → List Nat → List Nat
  | 0, _ => []
  | fuel + 1, s =>
    if s.headD 0 = 0 then []
    else
      let c := getUtf16FromUtf8 s
      getLeadingUtf16Char c.1 ::
        ((if getTrailingUtf16Char c.1 ≠ 0 then [getTrailingUtf16Char c.1] else []) ++
          decodeModifiedUtf8Loop fuel c.2)

def convertModifiedUtf8ToUtf16 (utf8 : List Nat) : List Nat :=
  decodeModifiedUtf8Loop (utf8.length + 1) utf8

/-- The general loop of `ConvertModifiedUtf8ToUtf16(utf16_data_out, out_chars, utf8_data_in,
in_bytes)`, which decodes until the bytes run out. -/
def convertModifiedUtf8ToUtf16BytesLoop : Nat → List Nat → List Nat
  | 0, _ => []
  | fuel + 1, s =>
    if s = [] then []
    else
      let c := getUtf16FromUtf8 s
      getLeadingUtf16Char c.1 ::
        ((if getTrailingUtf16Char c.1 ≠ 0 then [getTrailingUtf16Char c.1] else []) ++
          convertModifiedUtf8ToUtf16BytesLoop fuel c.2)

/-- The sized `ConvertModifiedUtf8ToUtf16` where the char count is not the byte count, the one
case `AllocFromModifiedUtf8` calls it in. -/
def convertModifiedUtf8ToUtf16Sized (utf8 : List Nat) : List Nat :=
  convertModifiedUtf8ToUtf16BytesLoop (utf8.length + 1) utf8

/-- `ConvertModifiedUtf8ToUtf16(utf16_data_out, out_chars, utf8_data_in, in_bytes)`: when the
char count equals the byte count every byte is copied as a char (the `dchecked_integral_cast`
keeps the byte), otherwise the bytes are decoded until they run out. -/
def convertModifiedUtf8ToUtf16Counted (outChars : Nat) (utf8 : List Nat) : List Nat :=
  if outChars = utf8.length then utf8 else convertModifiedUtf8ToUtf16Sized utf8

/-- The loop of `CountModifiedUtf8Chars`, over the bytes from `utf8` to `end`: each sequence is
stepped over by its first byte alone, and a four-byte one counts twice. -/
def countModifiedUtf8CharsLoop : List Nat → Nat
  | [] => 0
  | ic :: rest =>
    if ic &&& 0x80 = 0 then countModifiedUtf8CharsLoop rest + 1
    else if ic &&& 0x20 = 0 then countModifiedUtf8CharsLoop (rest.drop 1) + 1
    else if ic &&& 0x10 = 0 then countModifiedUtf8CharsLoop (rest.drop 2) + 1
    else countModifiedUtf8CharsLoop (rest.drop 3) + 2
termination_by s => s.length

/-- `CountModifiedUtf8Chars(utf8, byte_count)`. -/
def countModifiedUtf8Chars (utf8 : List Nat) (byteCount : Nat) : Nat :=
  countModifiedUtf8CharsLoop (utf8.take byteCount)

/-- `ComputeModifiedUtf8Hash(chars)`: `hash * 31 + byte` in `uint32_t` over the bytes before the
terminator. -/
def computeModifiedUtf8Hash (chars : List Nat) : BitVec 32 :=
  (chars.takeWhile (· ≠ 0)).foldl (fun (hash : BitVec 32) c => hash * 31 + BitVec.ofNat 32 c) 0

/-- `ComputeUtf16Hash(chars, char_count)`: `hash * 31 + c` in `uint32_t`, returned as `int32_t`. -/
def computeUtf16Hash (chars : List Nat) : Int :=
  (chars.foldl (fun (hash : BitVec 32) c => hash * 31 + BitVec.ofNat 32 c) 0).toInt

/-- The loop of `ComputeUtf16HashFromModifiedUtf8`, over the UTF-16 length still to hash.  A
pair's trailing char is hashed after its leading one; the source `DCHECK`s that the length
still counts it, and here the loop stops when it does not. -/
def computeUtf16HashFromModifiedUtf8Loop : Nat → List Nat → BitVec 32 → BitVec 32
  | 0, _, hash => hash
  | utf16Length + 1, utf8, hash =>
    let pair := getUtf16FromUtf8 utf8
    let hash := hash * 31 + BitVec.ofNat 32 (getLeadingUtf16Char pair.1)
    if getTrailingUtf16Char pair.1 ≠ 0 then
      let hash := hash * 31 + BitVec.ofNat 32 (getTrailingUtf16Char pair.1)
      match utf16Length with
      | 0 => hash
      | utf16Length + 1 => computeUtf16HashFromModifiedUtf8Loop utf16Length pair.2 hash
    else computeUtf16HashFromModifiedUtf8Loop utf16Length pair.2 hash

/-- `ComputeUtf16HashFromModifiedUtf8(utf8, utf16_length)`. -/
def computeUtf16HashFromModifiedUtf8 (utf8 : List Nat) (utf16Length : Nat) : Int :=
  (computeUtf16HashFromModifiedUtf8Loop utf16Length utf8 0).toInt

end Art
