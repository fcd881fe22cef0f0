import Mathlib

/-!
# The lock word (`runtime/lock_word.h`, `runtime/lock_word-inl.h`)

An object's `monitor_` field is a 32-bit lock word.  Its two top bits are its state: thin or
unlocked, fat, hash code, or forwarding address.  Under them lie the mark bit and the read barrier
bit, the GC state; a thin word holds, from the bottom, its owner's thread id (16 bits) and its
recursion count (12 bits), a fat word its monitor's id and a hash word the identity hash code
(28 bits each).  A forwarding word holds an address shifted right by the object alignment in its
30 low bits.

Whether the build has a read barrier (`kUseReadBarrier`) decides what `GetState` calls unlocked:
a word that is `0`, or, with the read barrier, a word that is `0` outside its GC state.  It is a
parameter of every function that reads the state.

The `CHECK`s of the functions that build or change a word, and their `DCHECK`s, are `none` when
they fail: the constructors' `CHECK_LE`s, the `CheckReadBarrierState()` of `LockWord(uint32_t)`,
and the setters' `DCHECK`s.  A getter's `DCHECK` only reads: the getter computes its field from
any word, and what is proved about it assumes the state that its `DCHECK` asks for.  A `Monitor*`
is its monitor id, which `FatLockMonitor` turns back into the monitor through the monitor pool.
-/

namespace Art

/-- `kObjectAlignmentShift`: objects are aligned to 8 bytes. -/
def kObjectAlignmentShift : Nat := 3

namespace ReadBarrier

/-- `ReadBarrier::kNonGrayState`: white (not marked) or black (marked through). -/
def kNonGrayState : BitVec 32 := 0

/-- `ReadBarrier::kGrayState`: marked, but not marked through. -/
def kGrayState : BitVec 32 := 1

end ReadBarrier

/-- `LockWord`: the value stored in `mirror::Object::monitor_`. -/
structure LockWord where
  value : BitVec 32
  deriving DecidableEq, Repr

namespace LockWord

/-! ### `SizeShiftsAndMasks` -/

def kStateSize : Nat := 2
def kReadBarrierStateSize : Nat := 1
def kMarkBitStateSize : Nat := 1
def kThinLockOwnerSize : Nat := 16
def kThinLockCountSize : Nat :=
  32 - kThinLockOwnerSize - kStateSize - kReadBarrierStateSize - kMarkBitStateSize

def kThinLockOwnerShift : Nat := 0
def kThinLockOwnerMask : BitVec 32 := (1 <<< kThinLockOwnerSize) - 1
def kThinLockMaxOwner : BitVec 32 := kThinLockOwnerMask
def kThinLockCountShift : Nat := kThinLockOwnerSize + kThinLockOwnerShift
def kThinLockCountMask : BitVec 32 := (1 <<< kThinLockCountSize) - 1
def kThinLockMaxCount : BitVec 32 := kThinLockCountMask

def kStateShift : Nat :=
  kReadBarrierStateSize + kThinLockCountSize + kThinLockCountShift + kMarkBitStateSize
def kStateMask : BitVec 32 := (1 <<< kStateSize) - 1
def kStateThinOrUnlocked : BitVec 32 := 0
def kStateFat : BitVec 32 := 1
def kStateHash : BitVec 32 := 2
def kStateForwardingAddress : BitVec 32 := 3
def kStateForwardingAddressShifted : BitVec 32 := kStateForwardingAddress <<< kStateShift

def kReadBarrierStateShift : Nat := kThinLockCountSize + kThinLockCountShift
def kReadBarrierStateMask : BitVec 32 := (1 <<< kReadBarrierStateSize) - 1
def kReadBarrierStateMaskShifted : BitVec 32 := kReadBarrierStateMask <<< kReadBarrierStateShift

def kMarkBitStateShift : Nat := kReadBarrierStateSize + kReadBarrierStateShift
def kMarkBitStateMask : BitVec 32 := (1 <<< kMarkBitStateSize) - 1
def kMarkBitStateMaskShifted : BitVec 32 := kMarkBitStateMask <<< kMarkBitStateShift
def kMarkBitStateMaskShiftedToggled : BitVec 32 := ~~~kMarkBitStateMaskShifted

def kGCStateSize : Nat := kReadBarrierStateSize + kMarkBitStateSize
def kGCStateShift : Nat := kReadBarrierStateShift
def kGCStateMaskShifted : BitVec 32 := kReadBarrierStateMaskShifted ||| kMarkBitStateMaskShifted
def kGCStateMaskShiftedToggled : BitVec 32 := ~~~kGCStateMaskShifted

def kHashShift : Nat := 0
def kHashSize : Nat := 32 - kStateSize - kReadBarrierStateSize - kMarkBitStateSize
def kHashMask : BitVec 32 := (1 <<< kHashSize) - 1
def kMaxHash : BitVec 32 := kHashMask

def kForwardingAddressShift : Nat := kObjectAlignmentShift

def kMonitorIdShift : Nat := kHashShift
def kMonitorIdMask : BitVec 32 := kHashMask
def kMaxMonitorId : BitVec 32 := kMaxHash

/-- `LockWord::LockState`. -/
inductive LockState
  | unlocked
  | thinLocked
  | fatLocked
  | hashCode
  | forwardingAddress
  deriving DecidableEq, Repr

/-! ### Reading a word -/

/-- `ReadBarrierState()`. -/
def readBarrierState (lw : LockWord) : BitVec 32 :=
  (lw.value >>> kReadBarrierStateShift) &&& kReadBarrierStateMask

/-- `MarkBitState()`. -/
def markBitState (lw : LockWord) : BitVec 32 :=
  (lw.value >>> kMarkBitStateShift) &&& kMarkBitStateMask

/-- `GCState()`. -/
def gcState (lw : LockWord) : BitVec 32 :=
  (lw.value &&& kGCStateMaskShifted) >>> kGCStateShift

/-- `ThinLockOwner()`. -/
def thinLockOwner (lw : LockWord) : BitVec 32 :=
  (lw.value >>> kThinLockOwnerShift) &&& kThinLockOwnerMask

/-- `ThinLockCount()`. -/
def thinLockCount (lw : LockWord) : BitVec 32 :=
  (lw.value >>> kThinLockCountShift) &&& kThinLockCountMask

/-- `FatLockMonitor()`: the `mon_id` it looks the monitor up by. -/
def fatLockMonitorId (lw : LockWord) : BitVec 32 :=
  (lw.value >>> kMonitorIdShift) &&& kMonitorIdMask

/-- `GetHashCode()`, an `int32_t`. -/
def getHashCode (lw : LockWord) : Int :=
  ((lw.value >>> kHashShift) &&& kHashMask).toInt

/-- `ForwardingAddress()`: the shift is of the `uint32_t` word, widened to `size_t` after. -/
def forwardingAddress (lw : LockWord) : BitVec 64 :=
  (lw.value <<< kForwardingAddressShift).setWidth 64

/-- `GetValueWithoutGCState()`. -/
def getValueWithoutGCState (lw : LockWord) : BitVec 32 := lw.value &&& kGCStateMaskShiftedToggled

/-- `Equal<kIncludeReadBarrierState>(lw1, lw2)`. -/
def equal (kIncludeReadBarrierState : Bool) (lw1 lw2 : LockWord) : Bool :=
  if kIncludeReadBarrierState then lw1.value == lw2.value
  else lw1.getValueWithoutGCState == lw2.getValueWithoutGCState

/-- `LockWord()`, which `Default()` returns. -/
def default : LockWord := ⟨0⟩

/-- `IsDefault(lw)`. -/
def isDefault (lw : LockWord) : Bool := default.value == lw.value

section ReadBarrierConfig

variable (kUseReadBarrier : Bool)

/-- `CheckReadBarrierState()`, the `DCHECK` of a debug build: outside the forwarding state the
read barrier state is `0` without a read barrier and a gray state or not with one. -/
def checkReadBarrierState (lw : LockWord) : Bool :=
  ((lw.value >>> kStateShift) &&& kStateMask) == kStateForwardingAddress ||
    if !kUseReadBarrier then lw.readBarrierState == 0
    else lw.readBarrierState == ReadBarrier.kNonGrayState ||
      lw.readBarrierState == ReadBarrier.kGrayState

/-- `GetState()`. -/
def getState (lw : LockWord) : LockState :=
  if (!kUseReadBarrier && lw.value == 0) ||
      (kUseReadBarrier && (lw.value &&& kGCStateMaskShiftedToggled) == 0) then
    .unlocked
  else
    let internalState := (lw.value >>> kStateShift) &&& kStateMask
    if internalState = kStateThinOrUnlocked then .thinLocked
    else if internalState = kStateHash then .hashCode
    else if internalState = kStateForwardingAddress then .forwardingAddress
    -- `DCHECK_EQ(internal_state, kStateFat)`: two bits have no fourth value
    else .fatLocked

/-! ### Building a word -/

/-- `LockWord(uint32_t val)`, with its `CheckReadBarrierState()`. -/
def ofValue (val : BitVec 32) : Option LockWord :=
  if checkReadBarrierState kUseReadBarrier ⟨val⟩ then some ⟨val⟩ else none

/-- `FromThinLockId(thread_id, count, gc_state)`. -/
def fromThinLockId (threadId count gcState : BitVec 32) : Option LockWord :=
  if threadId > kThinLockMaxOwner then none
  else if count > kThinLockMaxCount then none
  else
    ofValue kUseReadBarrier ((threadId <<< kThinLockOwnerShift) |||
      (count <<< kThinLockCountShift) ||| (gcState <<< kGCStateShift) |||
      (kStateThinOrUnlocked <<< kStateShift))

/-- `FromForwardingAddress(target)`: `size_t` is 64 bits wide, and the word keeps the low 32 bits
of what it is given. -/
def fromForwardingAddress (target : BitVec 64) : Option LockWord :=
  -- `DCHECK_ALIGNED(target, 1 << kStateSize)`
  if target.toNat % 2 ^ kStateSize ≠ 0 then none
  else
    ofValue kUseReadBarrier
      ((target >>> kForwardingAddressShift |||
        kStateForwardingAddressShifted.setWidth 64).setWidth 32)

/-- `FromHashCode(hash_code, gc_state)`. -/
def fromHashCode (hashCode gcState : BitVec 32) : Option LockWord :=
  if hashCode > kMaxHash then none
  else
    ofValue kUseReadBarrier ((hashCode <<< kHashShift) ||| (gcState <<< kGCStateShift) |||
      (kStateHash <<< kStateShift))

/-- `FromDefault(gc_state)`. -/
def fromDefault (gcState : BitVec 32) : Option LockWord :=
  ofValue kUseReadBarrier (gcState <<< kGCStateShift)

/-- `LockWord(Monitor* mon, gc_state)`, for the monitor whose id is `monitorId`. -/
def fromMonitor (monitorId gcState : BitVec 32) : Option LockWord :=
  let lw : LockWord := ⟨monitorId ||| (gcState <<< kGCStateShift) ||| (kStateFat <<< kStateShift)⟩
  -- `DCHECK_EQ(FatLockMonitor(), mon)`, whose own `DCHECK` asks for the fat state
  if lw.getState kUseReadBarrier ≠ .fatLocked then none
  else if lw.fatLockMonitorId ≠ monitorId then none
  else if monitorId > kMaxMonitorId then none
  else if !checkReadBarrierState kUseReadBarrier lw then none
  else some lw

/-! ### Changing the GC state -/

/-- `SetReadBarrierState(rb_state)`. -/
def setReadBarrierState (lw : LockWord) (rbState : BitVec 32) : Option LockWord :=
  if rbState &&& ~~~kReadBarrierStateMask ≠ 0 then none
  else if !(rbState == ReadBarrier.kNonGrayState || rbState == ReadBarrier.kGrayState) then none
  else if lw.getState kUseReadBarrier = .forwardingAddress then none
  else
    some ⟨(lw.value &&& ~~~(kReadBarrierStateMask <<< kReadBarrierStateShift)) |||
      ((rbState &&& kReadBarrierStateMask) <<< kReadBarrierStateShift)⟩

/-- `SetMarkBitState(mark_bit)`. -/
def setMarkBitState (lw : LockWord) (markBit : BitVec 32) : Option LockWord :=
  if markBit &&& ~~~kMarkBitStateMask ≠ 0 then none
  else if lw.getState kUseReadBarrier = .forwardingAddress then none
  else some ⟨(lw.value &&& kMarkBitStateMaskShiftedToggled) ||| (markBit <<< kMarkBitStateShift)⟩

end ReadBarrierConfig

end LockWord

end Art
