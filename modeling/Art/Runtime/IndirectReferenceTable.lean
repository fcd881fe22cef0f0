import Mathlib

/-!
# Indirect reference tables (`runtime/indirect_reference_table.h`, `.cc`, `-inl.h`)

A table holds entries from index 0 up to `segment_state_.top_index`.  Each JNI local frame owns
the entries from the top index at the time it was pushed (its cookie, `previous_state`) up to the
current top index; `Add` and `Remove` are given that cookie.  A removed entry below the top is a
hole, nulled and counted in `current_num_holes_`; the count is only trusted while
`last_known_previous_state_` still names the current segment, and `RecoverHoles` recounts it
otherwise.  Popping a frame only resets the top index: the entries above it keep their
references.

An entry is its serial and the reference that serial selects; the older references an entry keeps
for debugging are read by none of the operations here.  An `IndirectRef` is the index and serial
it encodes; the kind bits are the table's own, and the `kJniTransitionOrInvalid` path of `Remove`
is not modelled.  Entries beyond the mapped capacity read as zero, like fresh pages.

`JNIEnvExt` drives the local table of a thread: `NewLocalRef` and `DeleteLocalRef` pass the
current cookie, `PushFrame` saves it and starts a segment at the top, and `PopFrame` restores the
top index and the saved cookie.
-/

namespace Art

/-- `kIRTPrevCount` of a release build: the number of serials an entry cycles through. -/
def kIRTPrevCount : Nat := 3

def kPageSize : Nat := 4096

def kMaxTableSizeInBytes : Nat := 128 * 1024 * 1024

/-- `sizeof(IrtEntry)`: the serial and `kIRTPrevCount` references of four bytes each. -/
def sizeOfIrtEntry : Nat := (1 + kIRTPrevCount) * 4

def kMaxEntries : Nat := kMaxTableSizeInBytes / sizeOfIrtEntry

/-- `RoundUp(x, n)` for a power of two `n`. -/
def roundUp (x n : Nat) : Nat := (x + n - 1) / n * n

structure IrtEntry (α : Type) where
  serial : Nat
  reference : Option α
  deriving DecidableEq, Repr

/-- `IrtEntry::Add`: the next serial, which then holds `obj`. -/
def IrtEntry.add {α : Type} (e : IrtEntry α) (obj : α) : IrtEntry α :=
  let serial := if e.serial + 1 = kIRTPrevCount then 0 else e.serial + 1
  ⟨serial, some obj⟩

structure IRTSegmentState where
  topIndex : Nat
  deriving DecidableEq, Repr

def kIRTFirstSegment : IRTSegmentState := ⟨0⟩

/-- An indirect reference into the table: `EncodeIndirectRef(index, serial)`. -/
structure IndirectRef where
  index : Nat
  serial : Nat
  deriving DecidableEq, Repr

/-- Why `Add` returned `nullptr`; each is reported as
`"JNI ERROR (app bug): <kind> table overflow (max=<max_entries_>)"` with the table's dump, and the
last two add `" Resizing failed: exceeds size_t"` and
`" Resizing failed: Requested size exceeds maximum: <new_size>"`. -/
inductive AddError
  | tableOverflow (maxEntries : Nat)
  | resizeExceedsSizeT (maxEntries : Nat)
  | resizeFailed (maxEntries newSize : Nat)
  deriving DecidableEq, Repr

structure IndirectReferenceTable (α : Type) where
  segmentState : IRTSegmentState
  table : Nat → IrtEntry α
  maxEntries : Nat
  currentNumHoles : Nat
  lastKnownPreviousState : IRTSegmentState
  resizable : Bool

/-- `CountNullEntries(table, from, to)`. -/
def countNullEntries {α : Type} (table : Nat → IrtEntry α) (fromIndex toIndex : Nat) : Nat :=
  (List.range' fromIndex (toIndex - fromIndex)).countP fun index => (table index).reference.isNone

/-- The scan of `Add` for a hole: the first null entry from `index` down.  It stops at the start
of the table, which a scan started below the top entry of a segment with a hole never reaches. -/
def scanForHole {α : Type} (table : Nat → IrtEntry α) : Nat → Nat
  | 0 => 0
  | index + 1 => if (table (index + 1)).reference.isNone then index + 1 else scanForHole table index

/-- The loop of `Remove` that lowers the top index over the holes under a removed top entry,
`while (--collapse_top_index > bottom_index && current_num_holes_ != 0)`: from the old top
index and hole count, the new ones.  The old top index is above the removed entry, so never 0. -/
def collapseHoles {α : Type} (table : Nat → IrtEntry α) (bottomIndex : Nat) :
    Nat → Nat → Nat × Nat
  | 0, numHoles => (0, numHoles)
  | collapseTopIndex + 1, numHoles =>
    if collapseTopIndex > bottomIndex ∧ numHoles ≠ 0 then
      if (table (collapseTopIndex - 1)).reference.isSome then (collapseTopIndex, numHoles)
      else collapseHoles table bottomIndex collapseTopIndex (numHoles - 1)
    else (collapseTopIndex, numHoles)

namespace IndirectReferenceTable

variable {α : Type}

/-- The constructor: a mapping of `max_count` entries rounded up to whole pages, all zero. -/
def create (maxCount : Nat) (resizable : Bool) : IndirectReferenceTable α :=
  let tableBytes := roundUp (maxCount * sizeOfIrtEntry) kPageSize
  { segmentState := kIRTFirstSegment
    table := fun _ => ⟨0, none⟩
    maxEntries := tableBytes / sizeOfIrtEntry
    currentNumHoles := 0
    lastKnownPreviousState := kIRTFirstSegment
    resizable }

def getSegmentState (t : IndirectReferenceTable α) : IRTSegmentState := t.segmentState

def setSegmentState (t : IndirectReferenceTable α) (newState : IRTSegmentState) :
    IndirectReferenceTable α :=
  { t with segmentState := newState }

def toIndirectRef (t : IndirectReferenceTable α) (tableIndex : Nat) : IndirectRef :=
  ⟨tableIndex, (t.table tableIndex).serial⟩

/-- `CheckEntry`: whether `iref` is the reference of entry `idx` with its current serial. -/
def checkEntry (t : IndirectReferenceTable α) (iref : IndirectRef) (idx : Nat) : Bool :=
  decide (t.toIndirectRef idx = iref)

/-- `CheckHoleCount` of a debug build. -/
def checkHoleCount (table : Nat → IrtEntry α) (expNumHoles : Nat)
    (prevState curState : IRTSegmentState) : Bool :=
  decide (expNumHoles = countNullEntries table prevState.topIndex curState.topIndex)

def recoverHoles (t : IndirectReferenceTable α) (prevState : IRTSegmentState) :
    IndirectReferenceTable α :=
  if t.lastKnownPreviousState.topIndex ≥ t.segmentState.topIndex ∨
      t.lastKnownPreviousState.topIndex < prevState.topIndex then
    { t with
      currentNumHoles := countNullEntries t.table prevState.topIndex t.segmentState.topIndex
      lastKnownPreviousState := prevState }
  else t

/-- `Resize(new_size)`; `none` where the size exceeds `kMaxEntries`.  A failed mapping is not
modelled. -/
def resize (t : IndirectReferenceTable α) (newSize : Nat) : Option (IndirectReferenceTable α) :=
  if newSize > kMaxEntries then none
  else
    let tableBytes := roundUp (newSize * sizeOfIrtEntry) kPageSize
    some { t with maxEntries := tableBytes / sizeOfIrtEntry }

/-- The start of `Add`: a full table fails, or doubles its capacity where it may. -/
def makeRoom (t : IndirectReferenceTable α) : Except AddError (IndirectReferenceTable α) :=
  if t.segmentState.topIndex = t.maxEntries then
    if !t.resizable then .error (.tableOverflow t.maxEntries)
    -- try to double space
    else if (2 ^ 64 - 1) / 2 < t.maxEntries then .error (.resizeExceedsSizeT t.maxEntries)
    else
      match t.resize (t.maxEntries * 2) with
      | some t => .ok t
      | none => .error (.resizeFailed t.maxEntries (t.maxEntries * 2))
  else .ok t

def add (t : IndirectReferenceTable α) (previousState : IRTSegmentState) (obj : α) :
    Except AddError (IndirectRef × IndirectReferenceTable α) :=
  let topIndex := t.segmentState.topIndex
  match t.makeRoom with
  | .error e => .error e
  | .ok t =>
    let t := t.recoverHoles previousState
    if t.currentNumHoles > 0 then
      -- the first hole is likely near the end: scan down from under the top entry
      let index := scanForHole t.table (topIndex - 2)
      let t := { t with
        table := Function.update t.table index ((t.table index).add obj)
        currentNumHoles := t.currentNumHoles - 1 }
      .ok (t.toIndirectRef index, t)
    else
      let t := { t with
        table := Function.update t.table topIndex ((t.table topIndex).add obj)
        segmentState := ⟨topIndex + 1⟩ }
      .ok (t.toIndirectRef topIndex, t)

/-- `Remove(previous_state, iref)`: whether an entry was removed, and the table after. -/
def remove (t : IndirectReferenceTable α) (previousState : IRTSegmentState) (iref : IndirectRef) :
    Bool × IndirectReferenceTable α :=
  let topIndex := t.segmentState.topIndex
  let bottomIndex := previousState.topIndex
  let idx := iref.index
  -- the wrong segment, or a stale reference
  if idx < bottomIndex then (false, t)
  else if idx ≥ topIndex then (false, t)
  else
    let t := t.recoverHoles previousState
    if idx = topIndex - 1 then
      if !t.checkEntry iref idx then (false, t)
      else
        let table := Function.update t.table idx { t.table idx with reference := none }
        if t.currentNumHoles ≠ 0 then
          let collapsed := collapseHoles table bottomIndex topIndex t.currentNumHoles
          (true, { t with
            table
            currentNumHoles := collapsed.2
            segmentState := ⟨collapsed.1⟩ })
        else (true, { t with table, segmentState := ⟨topIndex - 1⟩ })
    else
      -- below the top this leaves a hole; a null entry is not removed twice
      if (t.table idx).reference.isNone then (false, t)
      else if !t.checkEntry iref idx then (false, t)
      else
        (true, { t with
          table := Function.update t.table idx { t.table idx with reference := none }
          currentNumHoles := t.currentNumHoles + 1 })

/-- `Get(iref)`; `none` where a `DCHECK` of a debug build fails. -/
def get (t : IndirectReferenceTable α) (iref : IndirectRef) : Option α :=
  let idx := iref.index
  if idx < t.segmentState.topIndex ∧ iref.serial = (t.table idx).serial then
    (t.table idx).reference
  else none

end IndirectReferenceTable

def kLocalsInitial : Nat := 512

/-- The local references of a thread's `JNIEnv`. -/
structure JNIEnvExt (α : Type) where
  locals : IndirectReferenceTable α
  localRefCookie : IRTSegmentState
  /-- `stacked_local_ref_cookies_`, its back first. -/
  stackedLocalRefCookies : List IRTSegmentState

/-- A call of a thread into the local reference functions of its `JNIEnv`. -/
inductive Op (α : Type)
  | newLocalRef (obj : α)
  | deleteLocalRef (iref : IndirectRef)
  | pushFrame
  | popFrame

namespace JNIEnvExt

variable {α : Type}

def create : JNIEnvExt α :=
  ⟨IndirectReferenceTable.create kLocalsInitial true, kIRTFirstSegment, []⟩

/-- `NewLocalRef(obj)`; on an error the source aborts. -/
def newLocalRef (e : JNIEnvExt α) (obj : α) : Except AddError (IndirectRef × JNIEnvExt α) :=
  match e.locals.add e.localRefCookie obj with
  | .ok (iref, locals) => .ok (iref, { e with locals })
  | .error err => .error err

def deleteLocalRef (e : JNIEnvExt α) (iref : IndirectRef) : JNIEnvExt α :=
  { e with locals := (e.locals.remove e.localRefCookie iref).2 }

def pushFrame (e : JNIEnvExt α) : JNIEnvExt α :=
  { e with
    stackedLocalRefCookies := e.localRefCookie :: e.stackedLocalRefCookies
    localRefCookie := e.locals.getSegmentState }

/-- `PopFrame()`; without a saved cookie (a pop with no push) the source reads past the vector,
and the model leaves the environment as it is. -/
def popFrame (e : JNIEnvExt α) : JNIEnvExt α :=
  match e.stackedLocalRefCookies with
  | cookie :: rest =>
    { locals := e.locals.setSegmentState e.localRefCookie
      localRefCookie := cookie
      stackedLocalRefCookies := rest }
  | [] => e

/-- One call; a failed `NewLocalRef`, which aborts, leaves the environment as it is. -/
def step (e : JNIEnvExt α) : Op α → JNIEnvExt α
  | .newLocalRef obj =>
    match e.newLocalRef obj with
    | .ok (_, e') => e'
    | .error _ => e
  | .deleteLocalRef iref => e.deleteLocalRef iref
  | .pushFrame => e.pushFrame
  | .popFrame => e.popFrame

def run (e : JNIEnvExt α) (ops : List (Op α)) : JNIEnvExt α := ops.foldl step e

end JNIEnvExt

end Art
