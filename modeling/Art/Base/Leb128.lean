import Art.Base.BitUtils
import Art.Lib.ByteMemory

/-!
# LEB128 (`libartbase/base/leb128.h`)

The decoders read a number at a byte pointer and return it with the pointer just past it.  They
are unrolled cascades of at most five bytes computing in `int`, modelled as `BitVec 32`: a byte read
through `*(ptr++)` is zero-extended, and the fifth byte is shifted in whole (`cur << 28`), so its
high bits fall off the word.  The signed decoders sign-extend a shorter number with a shift pair,
`(result << 25) >> 25` after one byte and so on.  The checked decoders test the pointer against
`end` before every byte and return `false`, leaving `*data` and `*out` alone, when it reaches it;
that is `none` here.

The encoders write from a byte pointer, or push onto a vector, and return the pointer past what
they wrote.  `UnsignedLeb128Size` and `SignedLeb128Size` compute the length from `CLZ` with the
multiply-by-37 division.  `UpdateUnsignedLeb128` writes a number over an old one and pads it to the
old length.
-/

namespace Art

open ByteMemory

/-- `*(ptr++)` read into an `int`. -/
def readByte (mem : ByteMemory) (ptr : Nat) : BitVec 32 := (mem ptr).setWidth 32

/-- `DecodeUnsignedLeb128(&data)`: the number and the pointer past it. -/
def decodeUnsignedLeb128 (mem : ByteMemory) (ptr : Nat) : BitVec 32 × Nat :=
  let result := readByte mem ptr
  if result > 0x7f then
    let cur := readByte mem (ptr + 1)
    let result := (result &&& 0x7f) ||| ((cur &&& 0x7f) <<< 7)
    if cur > 0x7f then
      let cur := readByte mem (ptr + 2)
      let result := result ||| ((cur &&& 0x7f) <<< 14)
      if cur > 0x7f then
        let cur := readByte mem (ptr + 3)
        let result := result ||| ((cur &&& 0x7f) <<< 21)
        if cur > 0x7f then
          -- garbage in the four high-order bits of the fifth byte is tolerated
          let cur := readByte mem (ptr + 4)
          (result ||| (cur <<< 28), ptr + 5)
        else (result, ptr + 4)
      else (result, ptr + 3)
    else (result, ptr + 2)
  else (result, ptr + 1)

/-- `DecodeUnsignedLeb128Checked(&data, end, &out)`: `none` is `return false`. -/
def decodeUnsignedLeb128Checked (mem : ByteMemory) (ptr end_ : Nat) : Option (BitVec 32 × Nat) :=
  if ptr ≥ end_ then none
  else
    let result := readByte mem ptr
    if result > 0x7f then
      if ptr + 1 ≥ end_ then none
      else
        let cur := readByte mem (ptr + 1)
        let result := (result &&& 0x7f) ||| ((cur &&& 0x7f) <<< 7)
        if cur > 0x7f then
          if ptr + 2 ≥ end_ then none
          else
            let cur := readByte mem (ptr + 2)
            let result := result ||| ((cur &&& 0x7f) <<< 14)
            if cur > 0x7f then
              if ptr + 3 ≥ end_ then none
              else
                let cur := readByte mem (ptr + 3)
                let result := result ||| ((cur &&& 0x7f) <<< 21)
                if cur > 0x7f then
                  if ptr + 4 ≥ end_ then none
                  else
                    let cur := readByte mem (ptr + 4)
                    some (result ||| (cur <<< 28), ptr + 5)
                else some (result, ptr + 4)
            else some (result, ptr + 3)
        else some (result, ptr + 2)
    else some (result, ptr + 1)

/-- `DecodeSignedLeb128(&data)`. -/
def decodeSignedLeb128 (mem : ByteMemory) (ptr : Nat) : BitVec 32 × Nat :=
  let result := readByte mem ptr
  if result ≤ 0x7f then ((result <<< 25).sshiftRight 25, ptr + 1)
  else
    let cur := readByte mem (ptr + 1)
    let result := (result &&& 0x7f) ||| ((cur &&& 0x7f) <<< 7)
    if cur ≤ 0x7f then ((result <<< 18).sshiftRight 18, ptr + 2)
    else
      let cur := readByte mem (ptr + 2)
      let result := result ||| ((cur &&& 0x7f) <<< 14)
      if cur ≤ 0x7f then ((result <<< 11).sshiftRight 11, ptr + 3)
      else
        let cur := readByte mem (ptr + 3)
        let result := result ||| ((cur &&& 0x7f) <<< 21)
        if cur ≤ 0x7f then ((result <<< 4).sshiftRight 4, ptr + 4)
        else
          let cur := readByte mem (ptr + 4)
          (result ||| (cur <<< 28), ptr + 5)

/-- `DecodeSignedLeb128Checked(&data, end, &out)`. -/
def decodeSignedLeb128Checked (mem : ByteMemory) (ptr end_ : Nat) : Option (BitVec 32 × Nat) :=
  if ptr ≥ end_ then none
  else
    let result := readByte mem ptr
    if result ≤ 0x7f then some ((result <<< 25).sshiftRight 25, ptr + 1)
    else
      if ptr + 1 ≥ end_ then none
      else
        let cur := readByte mem (ptr + 1)
        let result := (result &&& 0x7f) ||| ((cur &&& 0x7f) <<< 7)
        if cur ≤ 0x7f then some ((result <<< 18).sshiftRight 18, ptr + 2)
        else
          if ptr + 2 ≥ end_ then none
          else
            let cur := readByte mem (ptr + 2)
            let result := result ||| ((cur &&& 0x7f) <<< 14)
            if cur ≤ 0x7f then some ((result <<< 11).sshiftRight 11, ptr + 3)
            else
              if ptr + 3 ≥ end_ then none
              else
                let cur := readByte mem (ptr + 3)
                let result := result ||| ((cur &&& 0x7f) <<< 21)
                if cur ≤ 0x7f then some ((result <<< 4).sshiftRight 4, ptr + 4)
                else
                  if ptr + 4 ≥ end_ then none
                  else
                    let cur := readByte mem (ptr + 4)
                    some (result ||| (cur <<< 28), ptr + 5)

/-- `UnsignedLeb128Size(data)`: `ceil(bits / 7)` as `(x * 37) >> 8`. -/
def unsignedLeb128Size (data : BitVec 32) : Nat :=
  let x := 6 + 32 - clz (data ||| 1)
  (x * 37) >>> 8

/-- `SignedLeb128Size(data)`: one bit more than the highest bit that differs from the sign. -/
def signedLeb128Size (data : BitVec 32) : Nat :=
  let data := data ^^^ data.sshiftRight 31
  let x := 1 + 6 + 32 - clz (data ||| 1)
  (x * 37) >>> 8

/-- The loop of `EncodeUnsignedLeb128(uint8_t* dest, value)`: `out` is the group not yet
written and `value` the bits above it. -/
def encodeUnsignedLeb128Loop (mem : ByteMemory) (dest : Nat) (out : BitVec 8) (value : BitVec 32) :
    ByteMemory × Nat :=
  if value ≠ 0 then
    encodeUnsignedLeb128Loop (Function.update mem dest (out ||| 0x80)) (dest + 1)
      ((value &&& 0x7f).setWidth 8) (value >>> 7)
  else (Function.update mem dest out, dest + 1)
termination_by value.toNat
decreasing_by
  rw [BitVec.toNat_ushiftRight, Nat.shiftRight_eq_div_pow]
  have : value.toNat ≠ 0 := fun h => ‹value ≠ 0› (BitVec.eq_of_toNat_eq h)
  omega

/-- `EncodeUnsignedLeb128(uint8_t* dest, value)`: the memory and the pointer past the bytes. -/
def encodeUnsignedLeb128 (mem : ByteMemory) (dest : Nat) (value : BitVec 32) : ByteMemory × Nat :=
  encodeUnsignedLeb128Loop mem dest ((value &&& 0x7f).setWidth 8) (value >>> 7)

/-- The loop of `EncodeUnsignedLeb128(Vector* dest, value)`. -/
def encodeUnsignedLeb128VectorLoop (dest : List (BitVec 8)) (out : BitVec 8) (value : BitVec 32) :
    List (BitVec 8) :=
  if value ≠ 0 then
    encodeUnsignedLeb128VectorLoop (dest ++ [out ||| 0x80]) ((value &&& 0x7f).setWidth 8)
      (value >>> 7)
  else dest ++ [out]
termination_by value.toNat
decreasing_by
  rw [BitVec.toNat_ushiftRight, Nat.shiftRight_eq_div_pow]
  have : value.toNat ≠ 0 := fun h => ‹value ≠ 0› (BitVec.eq_of_toNat_eq h)
  omega

/-- `EncodeUnsignedLeb128(Vector* dest, value)`: `push_back` of every byte. -/
def encodeUnsignedLeb128Vector (dest : List (BitVec 8)) (value : BitVec 32) : List (BitVec 8) :=
  encodeUnsignedLeb128VectorLoop dest ((value &&& 0x7f).setWidth 8) (value >>> 7)

/-- The loop of `EncodeSignedLeb128(uint8_t* dest, value)`: `extraBits` are the bits above the
group in `out` that still differ from the sign. -/
def encodeSignedLeb128Loop (mem : ByteMemory) (dest : Nat) (value : BitVec 32) (out : BitVec 8)
    (extraBits : BitVec 32) : ByteMemory × Nat :=
  if extraBits ≠ 0 then
    let value := value.sshiftRight 7
    encodeSignedLeb128Loop (Function.update mem dest (out ||| 0x80)) (dest + 1) value
      ((value &&& 0x7f).setWidth 8) (extraBits >>> 7)
  else (Function.update mem dest out, dest + 1)
termination_by extraBits.toNat
decreasing_by
  rw [BitVec.toNat_ushiftRight, Nat.shiftRight_eq_div_pow]
  have : extraBits.toNat ≠ 0 := fun h => ‹extraBits ≠ 0› (BitVec.eq_of_toNat_eq h)
  omega

/-- `EncodeSignedLeb128(uint8_t* dest, value)`. -/
def encodeSignedLeb128 (mem : ByteMemory) (dest : Nat) (value : BitVec 32) : ByteMemory × Nat :=
  encodeSignedLeb128Loop mem dest value ((value &&& 0x7f).setWidth 8)
    ((value ^^^ value.sshiftRight 31) >>> 6)

/-- The loop of `EncodeSignedLeb128(Vector* dest, value)`. -/
def encodeSignedLeb128VectorLoop (dest : List (BitVec 8)) (value : BitVec 32) (out : BitVec 8)
    (extraBits : BitVec 32) : List (BitVec 8) :=
  if extraBits ≠ 0 then
    let value := value.sshiftRight 7
    encodeSignedLeb128VectorLoop (dest ++ [out ||| 0x80]) value ((value &&& 0x7f).setWidth 8)
      (extraBits >>> 7)
  else dest ++ [out]
termination_by extraBits.toNat
decreasing_by
  rw [BitVec.toNat_ushiftRight, Nat.shiftRight_eq_div_pow]
  have : extraBits.toNat ≠ 0 := fun h => ‹extraBits ≠ 0› (BitVec.eq_of_toNat_eq h)
  omega

/-- `EncodeSignedLeb128(Vector* dest, value)`. -/
def encodeSignedLeb128Vector (dest : List (BitVec 8)) (value : BitVec 32) : List (BitVec 8) :=
  encodeSignedLeb128VectorLoop dest value ((value &&& 0x7f).setWidth 8)
    ((value ^^^ value.sshiftRight 31) >>> 6)

/-- The padding loop of `UpdateUnsignedLeb128`: from the end of the new bytes to the old end, the
last byte gets the continuation bit and a zero byte follows. -/
def updateUnsignedLeb128Loop (mem : ByteMemory) (end_ oldEnd : Nat) : ByteMemory :=
  if end_ < oldEnd then
    let mem := Function.update mem (end_ - 1) (mem (end_ - 1) ||| 0x80)
    updateUnsignedLeb128Loop (Function.update mem end_ 0) (end_ + 1) oldEnd
  else mem
termination_by oldEnd - end_

/-- `UpdateUnsignedLeb128(dest, value)`: the new number over the old one, as long as the old. -/
def updateUnsignedLeb128 (mem : ByteMemory) (dest : Nat) (value : BitVec 32) : ByteMemory :=
  let oldEnd := (decodeUnsignedLeb128 mem dest).2
  let written := encodeUnsignedLeb128 mem dest value
  updateUnsignedLeb128Loop written.1 written.2 oldEnd

end Art
