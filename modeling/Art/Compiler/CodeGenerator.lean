import Mathlib

/-!
# Division by a constant (`compiler/optimizing/code_generator_utils.cc`, `code_generator_arm64.cc`)

`CalculateMagicAndShiftForDivRem` finds the multiplier and the shift with which the code generators
replace a division by a constant divisor.  It computes in `uint64_t` for `int` and `long`
divisors alike: `abs_nc` is the largest number `-1` modulo `|d|` that the dividends reach on the
side of zero the rounding is hardest on, and the do-while loop doubles `2 ^ p` divided by `abs_nc`
and by `|d|` until `2 ^ p > abs_nc * (|d| - 2 ^ p % |d|)`.  The loop has no bound of its own; it
runs here for at most 64 passes and is `none` beyond them.

The ARM64 code generator multiplies the dividend by the magic number, keeps the high word
(`Smulh`, or `Smull` into a 64-bit register for `int`), adds or subtracts the dividend when the
magic number's sign does not match the divisor's (it stands for a multiplier past the signed
range), shifts, and adds one to a negative quotient.  The remainder is `dividend - quotient * d`
(`Msub`).  For a non-negative dividend and a positive divisor the shift is logical and there is no
increment.  Registers of width `w` are `BitVec w`; the magic number and the divisor are the
`int64_t` values the generator holds.
-/

namespace Art

section CalculateMagic

/-- `quotient = 2 * quotient; remainder = 2 * remainder; if (remainder >= divisor) { quotient++;
remainder = remainder - divisor; }`, for the pair `(quotient, remainder)`. -/
def doubleQuotient (divisor : BitVec 64) (qr : BitVec 64 × BitVec 64) : BitVec 64 × BitVec 64 :=
  let quotient := 2 * qr.1
  let remainder := 2 * qr.2
  if remainder ≥ divisor then (quotient + 1, remainder - divisor) else (quotient, remainder)

/-- The variables of the do-while loop: `p`, `(quotient1, remainder1)` of `2 ^ p` by `abs_nc`,
and `(quotient2, remainder2)` of `2 ^ p` by `abs_d`. -/
structure MagicState where
  p : Nat
  qr1 : BitVec 64 × BitVec 64
  qr2 : BitVec 64 × BitVec 64
  deriving DecidableEq, Repr

/-- The do-while loop, for at most `fuel` passes. -/
def calculateMagicLoop (absD absNc : BitVec 64) : Nat → MagicState → Option MagicState
  | 0, _ => none
  | fuel + 1, s =>
    let s : MagicState := ⟨s.p + 1, doubleQuotient absNc s.qr1, doubleQuotient absD s.qr2⟩
    let delta := absD - s.qr2.2
    if s.qr1.1 < delta ∨ (s.qr1.1 = delta ∧ s.qr1.2 = 0) then
      calculateMagicLoop absD absNc fuel s
    else some s

/-- `CalculateMagicAndShiftForDivRem(divisor, is_long, &magic, &shift)`: the magic number as an
`int64_t` and the shift. -/
def calculateMagicAndShiftForDivRem (divisor : BitVec 64) (isLong : Bool) :
    Option (BitVec 64 × Int) :=
  let p : Nat := if isLong then 63 else 31
  let exp : BitVec 64 := if isLong then (1 : BitVec 64) <<< 63 else ((1 : BitVec 32) <<< 31).setWidth 64
  let absD : BitVec 64 := if 0 ≤ divisor.toInt then divisor else -divisor
  let signBit : BitVec 64 :=
    if isLong then divisor >>> 63 else (divisor.setWidth 32 >>> 31).setWidth 64
  let tmp := exp + signBit
  let absNc := tmp - 1 - tmp % absD
  let init : MagicState := ⟨p, (exp / absNc, exp % absNc), (exp / absD, exp % absD)⟩
  (calculateMagicLoop absD absNc 64 init).map fun s =>
    let magic := if 0 < divisor.toInt then s.qr2.1 + 1 else -s.qr2.1 - 1
    -- `*magic = static_cast<int>(*magic)`
    let magic := if isLong then magic else (magic.setWidth 32).signExtend 64
    (magic, if isLong then (s.p : Int) - 64 else (s.p : Int) - 32)

end CalculateMagic

section Arm64

variable {w : Nat}

/-- `Smulh`: the high `w` bits of the signed product. -/
def smulh (x y : BitVec w) : BitVec w := BitVec.ofInt w (x.toInt * y.toInt / 2 ^ w)

/-- `NeedToAddDividend`: the magic number was made negative by subtracting `2 ^ w`. -/
def needToAddDividend (magicNumber divisor : Int) : Bool := divisor > 0 && magicNumber < 0

/-- `NeedToSubDividend`: the magic number was made positive by adding `2 ^ w`. -/
def needToSubDividend (magicNumber divisor : Int) : Bool := divisor < 0 && magicNumber > 0

/-- `GenerateIncrementNegativeByOne`: `Cinc out, in, mi` after a flag-setting correction whose
result had the sign `negative`, or `Add out, in, in, LSR #(w - 1)`. -/
def generateIncrementNegativeByOne (input : BitVec w) (useCondInc negative : Bool) : BitVec w :=
  if useCondInc then (if negative then input + 1 else input) else input + (input >>> (w - 1))

/-- `GenerateResultRemWithAnyConstant`: `Msub out, quotient, divisor, dividend`. -/
def generateResultRemWithAnyConstant (dividend quotient : BitVec w) (divisor : Int) : BitVec w :=
  dividend - quotient * BitVec.ofInt w divisor

/-- The correction of the high word: `Adds temp, temp, dividend` or `Subs temp, temp, dividend`. -/
def correctHighWord (temp dividend : BitVec w) (magic imm : Int) : BitVec w :=
  if needToAddDividend magic imm then temp + dividend
  else if needToSubDividend magic imm then temp - dividend
  else temp

/-- `GenerateInt64DivRemWithAnyConstant` at register width `w`: the quotient and the remainder. -/
def generateInt64DivRemWithAnyConstant (dividend : BitVec w) (imm magic : Int) (shift : Nat) :
    BitVec w × BitVec w :=
  -- temp = get_high(dividend * magic)
  let temp := smulh dividend (BitVec.ofInt w magic)
  let useCondInc := needToAddDividend magic imm || needToSubDividend magic imm
  let temp := correctHighWord temp dividend magic imm
  let negative := temp.msb
  let temp := if shift ≠ 0 then temp.sshiftRight shift else temp
  let quotient := generateIncrementNegativeByOne temp useCondInc negative
  (quotient, generateResultRemWithAnyConstant dividend quotient imm)

/-- `generate_unsigned_div_code` of `GenerateInt64UnsignedDivRemWithAnyPositiveConstant`, at register
width `w`. -/
def generateUnsignedDivCode (dividend : BitVec w) (magic : Int) (shift : Nat) : BitVec w :=
  if magic > 0 ∧ shift = 0 then smulh dividend (BitVec.ofInt w magic)
  else
    let temp := smulh dividend (BitVec.ofInt w magic)
    -- the negative magic stands for a multiplier above `INT64_MAX`
    let temp := if magic < 0 then temp + dividend else temp
    temp >>> shift

/-- `GenerateInt64UnsignedDivRemWithAnyPositiveConstant` at register width `w`: for a non-negative
dividend and a positive divisor. -/
def generateInt64UnsignedDivRemWithAnyPositiveConstant (dividend : BitVec w) (imm magic : Int)
    (shift : Nat) : BitVec w × BitVec w :=
  let quotient := generateUnsignedDivCode dividend magic shift
  (quotient, generateResultRemWithAnyConstant dividend quotient imm)

/-- `GenerateInt32DivRemWithAnyConstant`: the product in a 64-bit register (`Smull`), the correction
on its high half, and a shift by `32 + shift`.  `nonNegativeInput` is
`HasNonNegativeInputAt(instruction, 0)`. -/
def generateInt32DivRemWithAnyConstant (dividend : BitVec 32) (imm magic : Int) (shift : Nat)
    (nonNegativeInput : Bool) : BitVec 32 × BitVec 32 :=
  let temp : BitVec 64 := BitVec.ofInt 64 (dividend.toInt * (BitVec.ofInt 32 magic).toInt)
  let useCondInc := needToAddDividend magic imm || needToSubDividend magic imm
  -- the correction is made in the high 32 bits: `Operand(dividend.X(), LSL, 32)`
  let temp := correctHighWord temp (dividend.setWidth 64 <<< 32) magic imm
  let negative := temp.msb
  if imm > 0 ∧ nonNegativeInput then
    let quotient := (temp >>> (32 + shift)).setWidth 32
    (quotient, generateResultRemWithAnyConstant dividend quotient imm)
  else
    let temp := (temp.sshiftRight (32 + shift)).setWidth 32
    let quotient := generateIncrementNegativeByOne temp useCondInc negative
    (quotient, generateResultRemWithAnyConstant dividend quotient imm)

end Arm64

end Art
