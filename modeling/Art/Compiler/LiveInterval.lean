import Mathlib

/-!
# The ranges of a live interval (`LiveInterval` in `compiler/optimizing/ssa_liveness_analysis.h`)

A `LiveInterval` holds a singly linked list of `LiveRange` nodes, `[start_, end_)` each, from
`first_range_` along `next_`, with `last_range_` pointing to the last node and
`range_search_start_`, a cache for linear scan, pointing to some node or null.  Its safepoints
are a second list, from `first_safepoint_` to `last_safepoint_`.

The ranges are a list in `next_` order.  A node keeps its address, the `LiveRange*` the
allocator returned for it, so that `last_range_` and `range_search_start_` are addresses; a
null pointer is `none`.  The address of a new node is an argument of the operation that
allocates it.  A node that an operation writes through a pointer (`first_range_->start_ =
start`) is the same node, with the same address, in the new list.  A safepoint is its position.

The operations that dereference a null pointer, and `SplitAt`'s `LOG(FATAL)`, return `none`.
The `DCHECK`s are not modelled; what they check is in the hypotheses of the results.  The uses,
the sibling and parent links, the register and the spill slot are left out: no modelled
function reads them.
-/

namespace Art

/-- `kNoLifetime`: `static constexpr size_t kNoLifetime = -1`. -/
def kNoLifetime : Nat := 2 ^ 64 - 1

/-- A `LiveRange` node: its address, `start_` and `end_`. -/
structure LiveRange where
  addr : Nat
  start : Nat
  end_ : Nat
  deriving DecidableEq, Repr

/-- `LiveRange::IsBefore(other)`. -/
def LiveRange.isBefore (r other : LiveRange) : Bool := r.end_ ≤ other.start

/-- The ranges and the safepoints of a `LiveInterval`. -/
structure LiveInterval where
  /-- The nodes from `first_range_` along `next_`. -/
  ranges : List LiveRange
  /-- `last_range_`. -/
  lastRange : Option Nat
  /-- `range_search_start_`. -/
  rangeSearchStart : Option Nat
  /-- The positions of the safepoints from `first_safepoint_` along `next_`. -/
  safepoints : List Nat
  isFixed : Bool
  isTemp : Bool
  deriving DecidableEq, Repr

namespace LiveInterval

variable (i : LiveInterval)

/-- `first_range_`. -/
def firstRange : Option Nat := i.ranges.head?.map (·.addr)

/-- The node at an address. -/
def node (a : Nat) : Option LiveRange := i.ranges.find? (·.addr == a)

/-- The list from the node a pointer points to, along `next_`. -/
def fromNode : Option Nat → List LiveRange
  | none => []
  | some a => i.ranges.dropWhile (·.addr != a)

/-- `GetEnd()`: `last_range_->GetEnd()`. -/
def getEnd : Option Nat := (i.lastRange.bind i.node).map (·.end_)

/-- `FindRangeAtOrAfter(position, search_start)`: the list from the node it returns. -/
def findRangeAtOrAfter (position : Nat) (searchStart : Option Nat) : List LiveRange :=
  (i.fromNode searchStart).dropWhile (·.end_ ≤ position)

/-- `candidate != nullptr && candidate->GetStart() <= position`. -/
def startsAtOrBefore (position : Nat) : List LiveRange → Bool
  | [] => false
  | candidate :: _ => candidate.start ≤ position

/-- `Covers(position)`: the answer, and the interval with `range_search_start_` moved to the
range found. -/
def covers (position : Nat) : Bool × LiveInterval :=
  let candidate := i.findRangeAtOrAfter position i.rangeSearchStart
  (startsAtOrBefore position candidate,
    { i with rangeSearchStart := candidate.head?.map (·.addr) })

/-- `CoversSlow(position)`. -/
def coversSlow (position : Nat) : Bool :=
  startsAtOrBefore position (i.findRangeAtOrAfter position i.firstRange)

/-- The loop of `FirstIntersectionWith`: `my_range` and `other_range` with the ranges after them.
A range that runs out is a null `GetNext()`. -/
def firstIntersectionLoop : List LiveRange → List LiveRange → Nat
  | [], _ => kNoLifetime
  | _, [] => kNoLifetime
  | myRange :: myRest, otherRange :: otherRest =>
    if myRange.isBefore otherRange then firstIntersectionLoop myRest (otherRange :: otherRest)
    else if otherRange.isBefore myRange then firstIntersectionLoop (myRange :: myRest) otherRest
    else max myRange.start otherRange.start

/-- `FirstIntersectionWith(current)`; `none` when `current->first_range_` is null. -/
def firstIntersectionWith (current : LiveInterval) : Option Nat :=
  match current.ranges with
  | [] => none
  | otherRange :: otherRest =>
    some (firstIntersectionLoop
      (i.findRangeAtOrAfter otherRange.start i.rangeSearchStart) (otherRange :: otherRest))

/-- `AddRange(start, end)`, the new node at address `newRange`. -/
def addRange (start end_ newRange : Nat) : LiveInterval :=
  match i.ranges with
  | [] =>
    { i with ranges := [⟨newRange, start, end_⟩], lastRange := some newRange,
             rangeSearchStart := some newRange }
  | firstRange :: rest =>
    if firstRange.start = end_ then
      -- There is a use in the following block.
      { i with ranges := { firstRange with start := start } :: rest }
    else if firstRange.start = start ∧ firstRange.end_ = end_ then i
    else
      -- There is a hole in the interval. Create a new range.
      { i with ranges := ⟨newRange, start, end_⟩ :: firstRange :: rest,
               rangeSearchStart := some newRange }

/-- The loop of `AddLoopRange`: `last_in_loop` and the list from `after_loop`. -/
def afterLoopSearch (end_ : Nat) : Option LiveRange → List LiveRange → Option LiveRange × List LiveRange
  | lastInLoop, [] => (lastInLoop, [])
  | lastInLoop, afterLoop :: rest =>
    if afterLoop.end_ < end_ then afterLoopSearch end_ (some afterLoop) rest
    else (lastInLoop, afterLoop :: rest)

/-- `AddLoopRange(start, end)`, a new node at address `newRange`; `none` when `last_in_loop` is
null where it is dereferenced. -/
def addLoopRange (start end_ newRange : Nat) : Option LiveInterval :=
  match afterLoopSearch end_ none i.ranges with
  | (_, []) =>
    -- Uses are only in the loop.
    some { i with ranges := [⟨newRange, start, end_⟩], lastRange := some newRange,
                  rangeSearchStart := some newRange }
  | (lastInLoop, afterLoop :: rest) =>
    if afterLoop.start ≤ end_ then
      -- There are uses after the loop.
      some { i with ranges := { afterLoop with start := start } :: rest,
                    rangeSearchStart := some afterLoop.addr }
    else
      -- The use after the loop is after a lifetime hole.
      match lastInLoop with
      | none => none
      | some lastInLoop =>
        some { i with ranges := { lastInLoop with start := start, end_ := end_ } :: afterLoop :: rest,
                      rangeSearchStart := some lastInLoop.addr }

/-- The index of `last_safepoint_`. -/
def lastSafepoint : Option Nat :=
  if i.safepoints = [] then none else some (i.safepoints.length - 1)

/-- The loop of `FindSafepointJustBefore(position)`: the index of `safepoint` and `previous`. -/
def findSafepointJustBeforeLoop (position : Nat) : Nat → Option Nat → List Nat → Option Nat
  | _, _, [] => i.lastSafepoint
  | idx, previous, safepoint :: rest =>
    if safepoint ≥ position then previous
    else findSafepointJustBeforeLoop position (idx + 1) (some idx) rest

/-- `FindSafepointJustBefore(position)`, as an index. -/
def findSafepointJustBefore (position : Nat) : Option Nat :=
  i.findSafepointJustBeforeLoop position 0 none i.safepoints

/-- The safepoints `SplitAt(position)` leaves to this interval and gives the new one. -/
def splitSafepoints (position : Nat) : List Nat × List Nat :=
  match i.findSafepointJustBefore position with
  | none => ([], i.safepoints)
  | some newLastSafepoint =>
    if i.lastSafepoint ≠ some newLastSafepoint then
      (i.safepoints.take (newLastSafepoint + 1), i.safepoints.drop (newLastSafepoint + 1))
    else (i.safepoints, [])

/-- `range_search_start_ != nullptr && range_search_start_->GetEnd() >= current->GetEnd()`. -/
def searchStartFrom (current : LiveRange) : Bool :=
  match i.rangeSearchStart.bind i.node with
  | none => false
  | some searchStart => searchStart.end_ ≥ current.end_

/-- The loop of `SplitAt(position)` over `previous` (the ranges passed) and `current`, the new
node at address `newRange`.  It returns this interval and the new one, or `none` at the
`LOG(FATAL)` and where the null `previous` is dereferenced. -/
def splitAtLoop (position newRange : Nat) (safepoints : List Nat × List Nat) :
    List LiveRange → List LiveRange → Option (LiveInterval × LiveInterval)
  | _, [] => none
  | previous, current :: rest =>
    if position ≥ current.end_ then
      splitAtLoop position newRange safepoints (previous ++ [current]) rest
    else if position ≤ current.start then
      -- `position` is in a lifetime hole: the ranges from `current` on go to the new interval
      match previous.getLast? with
      | none => none
      | some last =>
        some ({ i with ranges := previous, lastRange := some last.addr,
                       rangeSearchStart := if i.searchStartFrom current then none
                                           else i.rangeSearchStart,
                       safepoints := safepoints.1 },
              ⟨current :: rest, i.lastRange, some current.addr, safepoints.2, false, false⟩)
    else
      -- `current` covers `position`: a new last range for this interval up to `position`
      let lastRange : LiveRange := ⟨newRange, current.start, position⟩
      some ({ i with ranges := previous ++ [lastRange], lastRange := some newRange,
                     rangeSearchStart := if i.searchStartFrom current then some newRange
                                         else i.rangeSearchStart,
                     safepoints := safepoints.1 },
            ⟨{ current with start := position } :: rest, i.lastRange, some current.addr,
              safepoints.2, false, false⟩)

/-- `SplitAt(position)`: this interval and the new one (`none` for the null it returns when the
interval ends at or before `position`), the new range at address `newRange`. -/
def splitAt (position newRange : Nat) : Option (LiveInterval × Option LiveInterval) :=
  match i.getEnd with
  | none => none
  | some end_ =>
    if end_ ≤ position then some (i, none)
    else (i.splitAtLoop position newRange (i.splitSafepoints position) [] i.ranges).map
      fun split => (split.1, some split.2)

end LiveInterval

end Art
