import Mathlib

/-!
# Whether two array accesses can alias (`compiler/optimizing/load_store_analysis.cc`)

`HeapLocationCollector::CanArrayElementsAlias` decides whether the elements `[idx1, idx1 + len1)`
and `[idx2, idx2 + len2)` of one array can overlap.  It looks one instruction deep: two int
constants are compared as ranges, and an `Add` or `Sub` of an instruction and an int constant is
compared with that instruction (`CanBinaryOpAndIndexAlias`) or with another such operation on the
same instruction (`CanBinaryOpsAlias`), by the constants alone.  Anything else may alias.

Instructions are a type with decidable equality (the pointers the source compares), each with the
kind the analysis reads.  The offsets and range ends are `int64_t`; a range end adds the `size_t`
value `len - 1`, which goes through `uint64_t` and back (`toInt64`, which also takes care of a
wrapped `0 - 1`).  The offset of a `Sub` is the `int32_t` negation of its constant, undefined for
`INT32_MIN`: the result is then `none`.
-/

namespace Art

namespace LoadStoreAnalysis

/-- The kinds of binary operation the analysis tells apart: `IsAdd`, `IsSub`, and any other,
commutative or not. -/
inductive BinaryOp
  | add
  | sub
  | otherCommutative
  | other
  deriving DecidableEq, Repr

/-- `IsCommutative()`. -/
def BinaryOp.isCommutative : BinaryOp → Bool
  | .add | .otherCommutative => true
  | .sub | .other => false

/-- What the analysis asks of an instruction: an int constant, another constant, a binary
operation and its inputs, or anything else. -/
inductive InstructionKind (ι : Type)
  | intConstant (value : Int32)
  | constant
  | binaryOperation (op : BinaryOp) (left right : ι)
  | other
  deriving DecidableEq, Repr

variable {ι : Type} [DecidableEq ι] (kind : ι → InstructionKind ι)

/-- `IsConstant()`. -/
def isConstant (i : ι) : Bool :=
  match kind i with
  | .intConstant _ | .constant => true
  | _ => false

/-- `AsIntConstant()->GetValue()` of an int constant. -/
def intConstantValue (i : ι) : Option Int32 :=
  match kind i with
  | .intConstant v => some v
  | _ => none

/-- `HBinaryOperation::GetConstantRight()`: the right input if it is a constant, else the left
one if the operation is commutative and it is a constant. -/
def getConstantRight (i : ι) : Option ι :=
  match kind i with
  | .binaryOperation op left right =>
    if isConstant kind right then some right
    else if op.isCommutative && isConstant kind left then some left
    else none
  | _ => none

/-- `HBinaryOperation::GetLeastConstantLeft()`: the input that `GetConstantRight()` did not
return. -/
def getLeastConstantLeft (i : ι) : Option ι :=
  match kind i, getConstantRight kind i with
  | .binaryOperation _ left right, some mostConstantRight =>
    if mostConstantRight = left then some right else some left
  | _, _ => none

/-- `IsAddOrSub()`. -/
def addOrSub (i : ι) : Option BinaryOp :=
  match kind i with
  | .binaryOperation .add _ _ => some .add
  | .binaryOperation .sub _ _ => some .sub
  | _ => none

/-- An `int64_t` that is the sum of an `int64_t` and a `size_t`: the sum is taken modulo `2^64`
and read back as two's complement. -/
def toInt64 (x : Int) : Int := x.bmod (2 ^ 64)

/-- `CanIntegerRangesOverlap(l1, h1, l2, h2)`: the inclusive ranges meet. -/
def canIntegerRangesOverlap (l1 h1 l2 h2 : Int) : Bool := max l1 l2 ≤ min h1 h2

/-- `CanIntegerRangesOverlap` of the ranges that start at `l1` and `l2` with the given lengths. -/
def canRangesOverlap (l1 : Int) (vectorLength1 : Nat) (l2 : Int) (vectorLength2 : Nat) : Bool :=
  let h1 := toInt64 (l1 + ((vectorLength1 : Int) - 1))
  let h2 := toInt64 (l2 + ((vectorLength2 : Int) - 1))
  canIntegerRangesOverlap l1 h1 l2 h2

/-- The offset of `[i + CONST]`: the constant of an `Add`, its `int32_t` negation for a `Sub`. -/
def constantOffset (op : BinaryOp) (value : Int32) : Option Int :=
  if op = .add then some value.toInt
  else if value = Int32.minValue then none
  else some (-value).toInt

/-- The offset of `idx` when it is an `Add` or `Sub` of an int constant: `none` inside is the
undefined negation. -/
def binaryOpOffset (idx : ι) : Option (Option Int) := do
  let op ← addOrSub kind idx
  let c ← getConstantRight kind idx
  let value ← intConstantValue kind c
  return constantOffset op value

/-- `CanBinaryOpAndIndexAlias(idx1, len1, idx2, len2)`. -/
def canBinaryOpAndIndexAlias (idx1 : ι) (vectorLength1 : Nat) (idx2 : ι)
    (vectorLength2 : Nat) : Option Bool :=
  if addOrSub kind idx1 = none then some true
  else if getLeastConstantLeft kind idx1 ≠ some idx2 then some true
  else
    match binaryOpOffset kind idx1 with
    | none => some true
    | some l1 => l1.map fun l1 => canRangesOverlap l1 vectorLength1 0 vectorLength2

/-- `CanBinaryOpsAlias(idx1, len1, idx2, len2)`. -/
def canBinaryOpsAlias (idx1 : ι) (vectorLength1 : Nat) (idx2 : ι) (vectorLength2 : Nat) :
    Option Bool :=
  if addOrSub kind idx1 = none ∨ addOrSub kind idx2 = none then some true
  else if getLeastConstantLeft kind idx1 ≠ getLeastConstantLeft kind idx2 then some true
  else
    match binaryOpOffset kind idx1, binaryOpOffset kind idx2 with
    | some l1, some l2 => do
      let l1 ← l1
      let l2 ← l2
      return canRangesOverlap l1 vectorLength1 l2 vectorLength2
    | _, _ => some true

/-- `idx` is a binary operation with a constant input: `IsBinaryOperation()` and
`GetConstantRight() != nullptr`. -/
def hasConstantRight (idx : ι) : Bool := (getConstantRight kind idx).isSome

/-- `HeapLocationCollector::CanArrayElementsAlias(idx1, len1, idx2, len2)`. -/
def canArrayElementsAlias (idx1 : ι) (vectorLength1 : Nat) (idx2 : ι) (vectorLength2 : Nat) :
    Option Bool :=
  -- [i] and [i]
  if idx1 = idx2 then some true
  else
    match intConstantValue kind idx1, intConstantValue kind idx2 with
    -- [CONST1] and [CONST2]
    | some l1, some l2 => some (canRangesOverlap l1.toInt vectorLength1 l2.toInt vectorLength2)
    | _, _ =>
      -- [i+CONST] and [i]
      if hasConstantRight kind idx1 ∧ getLeastConstantLeft kind idx1 = some idx2 then
        canBinaryOpAndIndexAlias kind idx1 vectorLength1 idx2 vectorLength2
      -- [i] and [i+CONST]
      else if hasConstantRight kind idx2 ∧ getLeastConstantLeft kind idx2 = some idx1 then
        canBinaryOpAndIndexAlias kind idx2 vectorLength2 idx1 vectorLength1
      -- [i+CONST1] and [i+CONST2]
      else if hasConstantRight kind idx1 ∧ hasConstantRight kind idx2 then
        canBinaryOpsAlias kind idx1 vectorLength1 idx2 vectorLength2
      -- by default, may alias
      else some true

/-- The value a run gives `i` fits its kind: an int constant is its value, and an `Add` or a
`Sub` is the `int32_t` sum or difference of its inputs, wrapping around. -/
def valueFits (value : ι → Int32) (i : ι) : Bool :=
  match kind i with
  | .intConstant v => value i == v
  | .binaryOperation .add left right => value i == value left + value right
  | .binaryOperation .sub left right => value i == value left - value right
  | _ => true

/-- The values a run gives the instructions. -/
def Consistent (value : ι → Int32) : Prop := ∀ i, valueFits kind value i = true

end LoadStoreAnalysis

end Art
