import Art.Base.BitString
import Art.Lib.PathLabel

/-!
# The bitstring subtype check (`runtime/subtype_check_info.h`, `runtime/subtype_check.h`)

Each class keeps `SubtypeCheckBits` in its status word: a `BitString` holding the path from the
root (one character per level, at most `kCapacity` levels) followed by `Next`, the character the
class's next assigned child gets, and an overflow bit.  `SubtypeCheckInfo` pairs the bits with the
class's depth and reads a state off them: Uninitialized (no characters), Initialized (a truncated
path), Assigned (the full path) or Overflowed.

`SubtypeCheck::InitializeOrAssign` first assigns the superclass, recursively up to the root, and
then makes the class a child of it with `CreateChild`, which copies the parent's bits, starts the
child's own `Next` at 1, clears the inherited `Next`, and then either gives the child the parent's
`Next` (which the parent increments) or marks the child overflowed.

The class hierarchy is a `RootedTree` whose root is `java.lang.Object`, the runtime's bits are a
function from classes to `SubtypeCheckBits`, and the calls, made under `subtype_check_lock_`, run
one after another.  The class status that shares the word with the bits is not modelled.
-/

namespace Art

open PathLabel

structure SubtypeCheckBits where
  bitstring : BitString
  overflow : Bool

/-- `SubtypeCheckBits{}`. -/
def SubtypeCheckBits.empty : SubtypeCheckBits := ⟨BitString.empty, false⟩

structure SubtypeCheckInfo where
  depth : Nat
  bitstringAndOf : SubtypeCheckBits

namespace SubtypeCheckInfo

inductive State
  | kUninitialized
  | kInitialized
  | kAssigned
  | kOverflowed
deriving DecidableEq, Repr

inductive Result
  | kUnknownSubtypeOf
  | kNotSubtypeOf
  | kSubtypeOf
deriving DecidableEq, Repr

def create (compressedValue : SubtypeCheckBits) (depth : Nat) : SubtypeCheckInfo :=
  ⟨depth, compressedValue⟩

variable (info : SubtypeCheckInfo)

def getBitString : BitString := info.bitstringAndOf.bitstring

def hasNext : Bool := info.depth < kCapacity

def getSafeDepth : Nat := min info.depth kCapacity

def getPathToRoot : BitString := info.getBitString.truncate info.getSafeDepth

def getNext : BitStringChar := info.getBitString.getAt info.depth

/-- `SetNext` and `SetNextUnchecked`, which differ only in the debug checks. -/
def setNext (next : BitStringChar) : SubtypeCheckInfo :=
  { info with
    bitstringAndOf :=
      { info.bitstringAndOf with bitstring := info.getBitString.setAt info.depth next } }

def maybeInitNext : SubtypeCheckInfo :=
  if info.hasNext then
    let cleared := info.setNext BitStringChar.empty
    cleared.setNext (cleared.getNext.add 1)
  else info

def markOverflowed : SubtypeCheckInfo :=
  { info with bitstringAndOf := { info.bitstringAndOf with overflow := true } }

/-- `OverwriteNextValueFromParent(&child, value)`, called on the parent: the child's character at
the parent's depth becomes `value`. -/
def overwriteNextValueFromParent (child : SubtypeCheckInfo) (value : BitStringChar) :
    SubtypeCheckInfo :=
  if info.hasNext then
    { child with
      bitstringAndOf :=
        { child.bitstringAndOf with bitstring := child.getBitString.setAt info.depth value } }
  else child

def getState : State :=
  if info.bitstringAndOf.overflow then .kOverflowed
  else if info.getBitString.isEmpty then .kUninitialized
  else if info.getPathToRoot.length = info.depth then .kAssigned
  else .kInitialized

def getEncodedPathToRoot : BitVec 32 := info.getPathToRoot.storage

def getEncodedPathToRootMask : BitVec 32 :=
  maskLeastSignificant 32 (getBitLengthTotalAtPosition info.getSafeDepth)

def isSubtypeOf (target : SubtypeCheckInfo) : Result :=
  if target.getState ≠ .kAssigned then .kUnknownSubtypeOf
  else if info.getState = .kUninitialized then .kUnknownSubtypeOf
  else if (info.getEncodedPathToRoot &&& target.getEncodedPathToRootMask) =
      target.getEncodedPathToRoot then .kSubtypeOf
  else .kNotSubtypeOf

/-- `CreateRoot()`: a fresh info at depth 0 whose `Next` is 1. -/
def createRoot : SubtypeCheckInfo :=
  let fresh : SubtypeCheckInfo := ⟨0, SubtypeCheckBits.empty⟩
  fresh.setNext (fresh.getNext.add 1)

/-- `CreateChild(assign_next)`: the child, and the parent as the call leaves it. -/
def createChild (assignNext : Bool) : SubtypeCheckInfo × SubtypeCheckInfo :=
  let child : SubtypeCheckInfo := { info with depth := info.depth + 1 }
  let child := child.maybeInitNext
  let child := info.overwriteNextValueFromParent child BitStringChar.empty
  if !assignNext then (child, info)
  else if info.hasNext && !info.bitstringAndOf.overflow then
    let next := info.getNext
    if next.data ≠ next.maximumValue.data then
      (info.overwriteNextValueFromParent child next, info.setNext (next.add 1))
    else (child.markOverflowed, info)
  else (child.markOverflowed, info)

end SubtypeCheckInfo

namespace SubtypeCheck

open SubtypeCheckInfo

variable {κ : Type*} [DecidableEq κ] (T : RootedTree κ)

/-- `GetSubtypeCheckInfo(klass, depth)`: the source checks that `depth` is the class's. -/
def getSubtypeCheckInfoAtDepth (bits : κ → SubtypeCheckBits) (klass : κ) (depth : Nat) :
    SubtypeCheckInfo :=
  SubtypeCheckInfo.create (bits klass) depth

/-- `GetSubtypeCheckInfo(klass)`. -/
def getSubtypeCheckInfo (bits : κ → SubtypeCheckBits) (klass : κ) : SubtypeCheckInfo :=
  getSubtypeCheckInfoAtDepth bits klass (T.depth klass)

/-- `GetState(klass)`. -/
def getState (bits : κ → SubtypeCheckBits) (klass : κ) : State :=
  (getSubtypeCheckInfo T bits klass).getState

/-- `SetSubtypeCheckInfo(klass, new_sci)`: the compare-and-set loop writes the bits. -/
def setSubtypeCheckInfo (bits : κ → SubtypeCheckBits) (klass : κ) (newSci : SubtypeCheckInfo) :
    κ → SubtypeCheckBits :=
  Function.update bits klass newSci.bitstringAndOf

/-- `InitializeOrAssign(klass, assign)`: the info it returns and the bits it leaves. -/
def initializeOrAssign (bits : κ → SubtypeCheckBits) (klass : κ) (assign : Bool) :
    SubtypeCheckInfo × (κ → SubtypeCheckBits) :=
  match h : T.parent klass with
  | none =>
    -- the root goes from Uninitialized straight to Assigned
    let rootSci := getSubtypeCheckInfo T bits klass
    if rootSci.getState ≠ .kUninitialized then (rootSci, bits)
    else
      let newRootSci := SubtypeCheckInfo.createRoot
      (newRootSci, setSubtypeCheckInfo bits klass newRootSci)
  | some parentKlass =>
    let parent := initializeOrAssign bits parentKlass true
    let bits := parent.2
    let parentDepth := parent.1.depth
    let sci := getSubtypeCheckInfoAtDepth bits klass (parentDepth + 1)
    let parentSci := getSubtypeCheckInfoAtDepth bits parentKlass parentDepth
    let sciState := sci.getState
    if sciState = .kUninitialized ∨ (sciState = .kInitialized ∧ assign = true) then
      let created := parentSci.createChild assign
      (created.1, setSubtypeCheckInfo (setSubtypeCheckInfo bits klass created.1) parentKlass
        created.2)
    else (sci, bits)
termination_by T.depth klass
decreasing_by rw [T.depth_parent klass parentKlass h]; omega

def ensureInitialized (bits : κ → SubtypeCheckBits) (klass : κ) :
    State × (κ → SubtypeCheckBits) :=
  let r := initializeOrAssign T bits klass false
  (r.1.getState, r.2)

def ensureAssigned (bits : κ → SubtypeCheckBits) (klass : κ) :
    State × (κ → SubtypeCheckBits) :=
  let r := initializeOrAssign T bits klass true
  (r.1.getState, r.2)

def isSubtypeOf (bits : κ → SubtypeCheckBits) (source target : κ) : Result :=
  (getSubtypeCheckInfo T bits source).isSubtypeOf (getSubtypeCheckInfo T bits target)

/-- The calls that change the bits. -/
inductive Op (κ : Type*)
  | ensureInitialized (klass : κ)
  | ensureAssigned (klass : κ)

def Op.apply (bits : κ → SubtypeCheckBits) : Op κ → State × (κ → SubtypeCheckBits)
  | .ensureInitialized klass => SubtypeCheck.ensureInitialized T bits klass
  | .ensureAssigned klass => SubtypeCheck.ensureAssigned T bits klass

def run (bits : κ → SubtypeCheckBits) (ops : List (Op κ)) : κ → SubtypeCheckBits :=
  ops.foldl (fun bits op => (op.apply T bits).2) bits

/-- Every class starts with zero bits. -/
def initialBits : κ → SubtypeCheckBits := fun _ => SubtypeCheckBits.empty

end SubtypeCheck

end Art
