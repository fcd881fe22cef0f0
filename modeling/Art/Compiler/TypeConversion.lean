import Art.Lib.BinaryFloat

/-!
# Constant folding of type conversions (`compiler/optimizing/nodes.cc`,
`runtime/entrypoints/entrypoint_utils-inl.h`)

`HTypeConversion::TryStaticEvaluation` folds a conversion of an int, long, float or double
constant.  Integral narrowing is a C++ integral conversion: truncation, read back with the
target's sign or zero extension.  Integral to floating and double to float round to nearest.  A
floating value converted to `int32_t` or `int64_t` goes through a guard chain: NaN gives 0, a value
at or above the target's maximum (as a float or a double) gives the maximum, a value at or below a
minimum gives the minimum, and anything else is `static_cast` to the target.  That cast is
undefined when the truncated value does not fit, so the folding is `none` then.

`art_float_to_integral` is the runtime's conversion, which the interpreter and the entrypoints
use.  The machine's floats are those of `BinaryFloat`, so a float constant and a double constant
both hold a `FloatVal`.
-/

namespace Art

open BinaryFloat

/-- `DataType::Type`. -/
inductive DataType where
  | reference | bool | uint8 | int8 | uint16 | int16 | uint32 | int32 | uint64 | int64
  | float32 | float64 | void
  deriving DecidableEq, Repr

/-- `HIntConstant`, `HLongConstant`, `HFloatConstant` and `HDoubleConstant`. -/
inductive Constant where
  | int (value : BitVec 32)
  | long (value : BitVec 64)
  | float (value : FloatVal)
  | double (value : FloatVal)
  deriving DecidableEq

def kPrimIntMin : Int := -2 ^ 31
def kPrimIntMax : Int := 2 ^ 31 - 1
def kPrimLongMin : Int := -2 ^ 63
def kPrimLongMax : Int := 2 ^ 63 - 1

namespace TypeConversion

/-- The guard chain of a floating to `w`-bit integral conversion: `maxBound` and `minBound` are
the limits it compares with, `maxResult` and `minResult` what it returns past them. -/
def guardedToIntegral (w : Nat) (value : FloatVal) (maxBound : FloatVal) (maxResult : Int)
    (minBound : FloatVal) (minResult : Int) : Option (BitVec w) :=
  if value.isNan then some 0
  else if value.ge maxBound then some (BitVec.ofInt w maxResult)
  else if value.le minBound then some (BitVec.ofInt w minResult)
  else value.toIntegral? w

/-- `HTypeConversion::TryStaticEvaluation()`: `none` when a conversion it executes is undefined,
`some none` for `nullptr`. -/
def tryStaticEvaluation (input : Constant) (resultType : DataType) : Option (Option Constant) :=
  match input, resultType with
  | .int value, .int8 => some (some (.int ((value.setWidth 8).signExtend 32)))
  | .int value, .uint8 => some (some (.int ((value.setWidth 8).setWidth 32)))
  | .int value, .int16 => some (some (.int ((value.setWidth 16).signExtend 32)))
  | .int value, .uint16 => some (some (.int ((value.setWidth 16).setWidth 32)))
  | .int value, .int64 => some (some (.long (value.signExtend 64)))
  | .int value, .float32 => some (some (.float (binary32.round value.toInt)))
  | .int value, .float64 => some (some (.double (binary64.round value.toInt)))
  | .int _, _ => some none
  | .long value, .int8 => some (some (.int ((value.setWidth 8).signExtend 32)))
  | .long value, .uint8 => some (some (.int ((value.setWidth 8).setWidth 32)))
  | .long value, .int16 => some (some (.int ((value.setWidth 16).signExtend 32)))
  | .long value, .uint16 => some (some (.int ((value.setWidth 16).setWidth 32)))
  | .long value, .int32 => some (some (.int (value.setWidth 32)))
  | .long value, .float32 => some (some (.float (binary32.round value.toInt)))
  | .long value, .float64 => some (some (.double (binary64.round value.toInt)))
  | .long _, _ => some none
  | .float value, .int32 =>
    (guardedToIntegral 32 value (binary32.round kPrimIntMax) kPrimIntMax
      (binary32.round kPrimIntMin) kPrimIntMin).map fun v => some (.int v)
  | .float value, .int64 =>
    (guardedToIntegral 64 value (binary32.round kPrimLongMax) kPrimLongMax
      (binary32.round kPrimLongMin) kPrimLongMin).map fun v => some (.long v)
  -- float to double is exact
  | .float value, .float64 => some (some (.double value))
  | .float _, _ => some none
  | .double value, .int32 =>
    -- the lower limit is `kPrimLongMin`, the result below it `kPrimIntMin`
    (guardedToIntegral 32 value (binary64.round kPrimIntMax) kPrimIntMax
      (binary64.round kPrimLongMin) kPrimIntMin).map fun v => some (.int v)
  | .double value, .int64 =>
    (guardedToIntegral 64 value (binary64.round kPrimLongMax) kPrimLongMax
      (binary64.round kPrimLongMin) kPrimLongMin).map fun v => some (.long v)
  | .double value, .float32 =>
    let narrowed : FloatVal := match value with
      | .num q => binary32.round q
      | v => v
    some (some (.float narrowed))
  | .double _, _ => some none

end TypeConversion

/-- `art_float_to_integral<INT_TYPE, FLOAT_TYPE>(f)` for a `w`-bit `INT_TYPE` and the format of
`FLOAT_TYPE`. -/
def artFloatToIntegral (w : Nat) (fmt : BinaryFloat.Format) (f : FloatVal) :
    Option (BitVec w) :=
  let kMaxInt : Int := 2 ^ (w - 1) - 1
  let kMinInt : Int := -2 ^ (w - 1)
  let kMaxIntAsFloat := fmt.round kMaxInt
  let kMinIntAsFloat := fmt.round kMinInt
  if kMinIntAsFloat.lt f then
    if f.lt kMaxIntAsFloat then f.toIntegral? w else some (BitVec.ofInt w kMaxInt)
  else some (if f.isNan then 0 else BitVec.ofInt w kMinInt)

end Art
