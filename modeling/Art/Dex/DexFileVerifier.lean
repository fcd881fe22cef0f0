import Art.Base.Leb128

/-!
# Checks of `DexFileVerifier` (`libdexfile/dex/dex_file_verifier.cc`)

The verifier reads the file through `ptr_`, a byte pointer into the memory from `begin_`, and
the file ends at `begin_ + size_`.  A check returns the pointer past what it read, or the message
it passes to `ErrorStringPrintf` (which prefixes it with the file's location); `%x` prints
lowercase hexadecimal.

`CheckIntraStringDataItem` reads a ULEB128 count of UTF-16 units, checked against the end, and
then that many Modified UTF-8 characters of one to three bytes and the terminating zero.  Only
the first byte of each character is compared with the end of the file.
-/

namespace Art.DexFileVerifier

open ByteMemory

/-- `%x`. -/
def hexString (v : Nat) : String := String.ofList (Nat.toDigits 16 v)

/-- The `for (uint32_t i = 0; i < size; i++)` loop of `CheckIntraStringDataItem`, with `count`
characters still to read from `ptr`: the `switch` on the high four bits of the first byte. -/
def checkStringDataLoop (mem : ByteMemory) (fileEnd : Nat) (size : BitVec 32) :
    Nat → Nat → Except String Nat
  | 0, ptr => .ok ptr
  | count + 1, ptr =>
    if ptr ≥ fileEnd then .error "String data would go beyond end-of-file"
    else
      let byte := (mem ptr).toNat
      let ptr := ptr + 1
      let high := byte >>> 4
      if high = 0x00 then
        if byte = 0 then .error ("String data shorter than indicated utf16_size " ++ hexString size.toNat)
        else checkStringDataLoop mem fileEnd size count ptr
      else if high ≤ 0x07 then checkStringDataLoop mem fileEnd size count ptr
      else if high ≤ 0x0b ∨ high = 0x0f then
        .error ("Illegal start byte " ++ hexString byte ++ " in string data")
      else if high ≤ 0x0d then
        -- bit pattern `110x`: one more byte, read without a bound check
        let byte2 := (mem ptr).toNat
        let ptr := ptr + 1
        if byte2 &&& 0xc0 ≠ 0x80 then
          .error ("Illegal continuation byte " ++ hexString byte2 ++ " in string data")
        else
          let value := ((byte &&& 0x1f) <<< 6) ||| (byte2 &&& 0x3f)
          if value ≠ 0 ∧ value < 0x80 then
            .error ("Illegal representation for value " ++ hexString value ++ " in string data")
          else checkStringDataLoop mem fileEnd size count ptr
      else
        -- bit pattern `1110`: two more bytes
        let byte2 := (mem ptr).toNat
        let ptr := ptr + 1
        if byte2 &&& 0xc0 ≠ 0x80 then
          .error ("Illegal continuation byte " ++ hexString byte2 ++ " in string data")
        else
          let byte3 := (mem ptr).toNat
          let ptr := ptr + 1
          if byte3 &&& 0xc0 ≠ 0x80 then
            .error ("Illegal continuation byte " ++ hexString byte3 ++ " in string data")
          else
            let value := ((byte &&& 0x0f) <<< 12) ||| ((byte2 &&& 0x3f) <<< 6) ||| (byte3 &&& 0x3f)
            if value < 0x800 then
              .error ("Illegal representation for value " ++ hexString value ++ " in string data")
            else checkStringDataLoop mem fileEnd size count ptr

/-- `CheckIntraStringDataItem()` with `ptr_` at `ptr`: the pointer past the terminator. -/
def checkIntraStringDataItem (mem : ByteMemory) (begin size ptr : Nat) : Except String Nat :=
  match decodeUnsignedLeb128Checked mem ptr (begin + size) with
  | none => .error "Read out of bounds"
  | some (utf16Size, ptr) =>
    match checkStringDataLoop mem (begin + size) utf16Size utf16Size.toNat ptr with
    | .error e => .error e
    | .ok ptr =>
      -- the terminator is read without a bound check
      if (mem ptr).toNat ≠ 0 then .error ("String longer than indicated size " ++ hexString utf16Size.toNat)
      else .ok (ptr + 1)

/-- A string of one char at the end of a two-byte file: its terminator would be the byte at
`file_end`, which the check reads, so two memories that hold the same file give different
answers. -/
theorem check_string_data_reads_past_end :
    (∀ a < 2, ofList [1, 0x41] a = ofList [1, 0x41, 7] a) ∧
      checkIntraStringDataItem (ofList [1, 0x41]) 0 2 0 = .ok 3 ∧
      checkIntraStringDataItem (ofList [1, 0x41, 7]) 0 2 0 =
        .error "String longer than indicated size 1" := by
  decide

end Art.DexFileVerifier
