import Mathlib

/-!
# Value bounds and value ranges (`compiler/optimizing/bounds_check_elimination.cc`)

A `ValueBound` is an instruction plus an `int32_t` constant, or the constant alone; a
`ValueRange` is an inclusive pair of them, and a `MonotonicValueRange` describes a loop-header
phi `i = phi(initial, i + increment)`, which as a plain range is `[Min(), Max()]`.  Instructions
are a type with decidable equality (the pointers the source compares), of which bounds-check
elimination reads the kind and `HuntForDeclaration`.  The `int32_t` arithmetic of the source is
`Int32` arithmetic; the `int64_t` computation of the last value of an increasing sequence is done
in `Int`, where it does not overflow, and narrowed back with `Int32.ofInt`.
-/

namespace Art

/-- What bounds-check elimination asks of an instruction: `IsIntConstant`, `IsArrayLength`,
`IsNewArray`. -/
inductive InstructionKind
  | intConstant (value : Int32)
  | arrayLength
  | newArray
  | other
  deriving DecidableEq, Repr

/-- The instructions of a graph. -/
structure Instructions (ι : Type) where
  kind : ι → InstructionKind
  /-- `HuntForDeclaration`: the instruction under array lengths, null checks and new arrays. -/
  huntForDeclaration : ι → ι

namespace Instructions

variable {ι : Type} (g : Instructions ι)

/-- `IsArrayLength() || IsNewArray()`. -/
def isArrayLengthOrNewArray (i : ι) : Bool :=
  match g.kind i with
  | .arrayLength | .newArray => true
  | _ => false

end Instructions

structure ValueBound (ι : Type) where
  instruction : Option ι
  constant : Int32
  deriving DecidableEq, Repr

namespace ValueBound

variable {ι : Type} [DecidableEq ι] (g : Instructions ι)

def wouldAddOverflowOrUnderflow (left right : Int32) : Bool :=
  if right = 0 then false
  else if 0 < right ∧ left ≤ Int32.maxValue - right then false
  else if right < 0 ∧ Int32.minValue - right ≤ left then false
  else true

/-- The constructor `ValueBound(instruction, constant)`: an int constant instruction is folded
into the constant when the sum does not overflow. -/
def create (instruction : Option ι) (constant : Int32) : ValueBound ι :=
  match instruction with
  | some i =>
    match g.kind i with
    | .intConstant instrConst =>
      if wouldAddOverflowOrUnderflow instrConst constant then ⟨instruction, constant⟩
      else ⟨none, instrConst + constant⟩
    | _ => ⟨instruction, constant⟩
  | none => ⟨none, constant⟩

def isRelatedToArrayLength (b : ValueBound ι) : Bool :=
  match b.instruction with
  | some i => g.isArrayLengthOrNewArray i
  | none => false

def isConstant (b : ValueBound ι) : Bool := b.instruction.isNone

def min : ValueBound ι := ⟨none, Int32.minValue⟩

def max : ValueBound ι := ⟨none, Int32.maxValue⟩

def equal (instruction1 instruction2 : Option ι) : Bool :=
  if instruction1 = instruction2 then true
  else
    match instruction1, instruction2 with
    | some i1, some i2 => g.huntForDeclaration i1 = g.huntForDeclaration i2
    | _, _ => false

def greaterThanOrEqualTo (b bound : ValueBound ι) : Bool :=
  equal g b.instruction bound.instruction && decide (bound.constant ≤ b.constant)

def lessThanOrEqualTo (b bound : ValueBound ι) : Bool :=
  equal g b.instruction bound.instruction && decide (b.constant ≤ bound.constant)

def narrowLowerBound (bound1 bound2 : ValueBound ι) : ValueBound ι :=
  if bound1.greaterThanOrEqualTo g bound2 then bound1
  else if bound2.greaterThanOrEqualTo g bound1 then bound2
  -- not comparable: favor a constant
  else if bound1.isConstant then bound1
  else bound2

def narrowUpperBound (bound1 bound2 : ValueBound ι) : ValueBound ι :=
  if bound1.lessThanOrEqualTo g bound2 then bound1
  else if bound2.lessThanOrEqualTo g bound1 then bound2
  -- not comparable: favor an array length
  else if bound1.isRelatedToArrayLength g then bound1
  else bound2

/-- What `Add(c, &overflow, &underflow)` returns and sets. -/
structure AddResult (ι : Type) where
  bound : ValueBound ι
  overflow : Bool
  underflow : Bool
  deriving DecidableEq, Repr

def add (b : ValueBound ι) (c : Int32) : AddResult ι :=
  if c = 0 then ⟨b, false, false⟩
  else if 0 < c then
    if Int32.maxValue - c < b.constant then ⟨max, true, false⟩
    else
      let newConstant := b.constant + c
      -- (array.length + non-positive-constant) won't overflow an int
      if b.isConstant || (b.isRelatedToArrayLength g && newConstant ≤ 0) then
        ⟨create g b.instruction newConstant, false, false⟩
      else ⟨max, true, false⟩
  else
    if b.constant < Int32.minValue - c then ⟨min, false, true⟩
    else
      let newConstant := b.constant + c
      if b.isConstant || b.isRelatedToArrayLength g then
        ⟨create g b.instruction newConstant, false, false⟩
      else ⟨min, false, true⟩

end ValueBound

structure MonotonicValueRange (ι : Type) where
  inductionVariable : ι
  initial : ι
  increment : Int32
  bound : ValueBound ι
  deriving DecidableEq, Repr

/-- A `ValueRange*` that is not null: a plain range, or a `MonotonicValueRange`. -/
inductive ValueRange (ι : Type)
  | plain (lower upper : ValueBound ι)
  | monotonic (range : MonotonicValueRange ι)
  deriving DecidableEq, Repr

namespace ValueRange

variable {ι : Type} [DecidableEq ι] (g : Instructions ι)

def getLower : ValueRange ι → ValueBound ι
  | plain lower _ => lower
  | monotonic _ => ValueBound.min

def getUpper : ValueRange ι → ValueBound ι
  | plain _ upper => upper
  | monotonic _ => ValueBound.max

def isMonotonicValueRange : ValueRange ι → Bool
  | plain _ _ => false
  | monotonic _ => true

def isConstantValueRange (r : ValueRange ι) : Bool := r.getLower.isConstant && r.getUpper.isConstant

def fitsIn : ValueRange ι → Option (ValueRange ι) → Bool
  | _, none => true
  | plain lower upper, some other =>
    lower.greaterThanOrEqualTo g other.getLower && upper.lessThanOrEqualTo g other.getUpper
  | monotonic _, some _ => false

/-- `Add(constant)`: `none` where the source returns `nullptr`. -/
def add (r : ValueRange ι) (constant : Int32) : Option (ValueRange ι) :=
  let lower := r.getLower.add g constant
  -- lower bound underflow will wrap around to positive values and invalidate the upper bound
  if lower.underflow then none
  else
    let upper := r.getUpper.add g constant
    if upper.overflow then none
    else some (plain lower.bound upper.bound)

end ValueRange

namespace MonotonicValueRange

variable {ι : Type} [DecidableEq ι] (g : Instructions ι)

/-- `range->GetUpper()` as an `int32_t`, with the maximal array length `Max()`. -/
def upperLimit (upperBound : ValueBound ι) : Int32 :=
  let maxArrayLen := Int32.maxValue
  if upperBound.isConstant then upperBound.constant
  else if upperBound.isRelatedToArrayLength g && upperBound.constant ≤ 0 then
    maxArrayLen + upperBound.constant
  else Int32.maxValue

/-- The last value of `initial, initial + increment, ...` that is at most `upper`, or `upper`
when the initial value is not a constant. -/
def lastNumInSequence (m : MonotonicValueRange ι) (upper : Int32) : Int32 :=
  match g.kind m.initial with
  | .intConstant initialConstant =>
    if upper ≤ initialConstant then upper
    else Int32.ofInt (initialConstant.toInt +
      (upper.toInt - initialConstant.toInt).tdiv m.increment.toInt * m.increment.toInt)
  | _ => upper

def narrow (m : MonotonicValueRange ι) (range : ValueRange ι) : ValueRange ι :=
  if 0 < m.increment then
    let lower := ValueBound.narrowLowerBound g m.bound range.getLower
    if !lower.isConstant || lower.constant = Int32.minValue then .monotonic m
    else
      let upper := upperLimit g range.getUpper
      -- no overflow: the sequence is stopped by the upper bound test
      if m.lastNumInSequence g upper ≤ Int32.maxValue - m.increment then
        .plain lower range.getUpper
      else .monotonic m
  else
    let upper := ValueBound.narrowUpperBound g m.bound range.getUpper
    if (!upper.isConstant || upper.constant = Int32.maxValue) && !upper.isRelatedToArrayLength g then
      .monotonic m
    else if range.getLower.isConstant && Int32.minValue - m.increment ≤ range.getLower.constant then
      .plain range.getLower upper
    else .monotonic m

end MonotonicValueRange

namespace ValueRange

variable {ι : Type} [DecidableEq ι] (g : Instructions ι)

def narrow : ValueRange ι → Option (ValueRange ι) → ValueRange ι
  | r, none => r
  | plain lower upper, some range =>
    if range.isMonotonicValueRange then plain lower upper
    else plain (ValueBound.narrowLowerBound g lower range.getLower)
      (ValueBound.narrowUpperBound g upper range.getUpper)
  | monotonic m, some range => m.narrow g range

end ValueRange

variable {ι : Type} [DecidableEq ι] (g : Instructions ι)

/-- Whether `VisitBoundsCheck` replaces the check of `index` against `arrayLength` by the index,
from the ranges `lookup` finds for them (`LookupValueRange`).  The induction-variable analysis
it tries last is not modelled, and a failed `DCHECK` keeps the check. -/
def visitBoundsCheck (index arrayLength : ι) (lookup : ι → Option (ValueRange ι)) : Bool :=
  match g.kind index with
  | .intConstant constant =>
    if constant < 0 then false
    else
      match g.kind arrayLength with
      | .intConstant length => decide (constant < length)
      | _ =>
        match lookup arrayLength with
        | some existing =>
          existing.getLower.isConstant && decide (constant < existing.getLower.constant)
        | none => false
  | _ =>
    let lower : ValueBound ι := ⟨none, 0⟩
    let arrayRange := ValueRange.plain lower (ValueBound.create g (some arrayLength) (-1))
    match lookup index with
    | some indexRange =>
      indexRange.fitsIn g (some arrayRange) ||
        (indexRange.isConstantValueRange &&
          match lookup arrayLength with
          | some existing =>
            -- a constant array length range: try once more against its lower bound
            existing.isConstantValueRange && decide (0 < existing.getLower.constant) &&
              indexRange.fitsIn g
                (some (.plain lower ⟨none, existing.getLower.constant - 1⟩))
          | none => false)
    | none => false

end Art
