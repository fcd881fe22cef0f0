import Mathlib

/-!
# `HashSet` (`libartbase/base/hash_set.h`)

An open-addressing set with linear probing.  The bucket array is a function from index to
element; a slot is free when `EmptyFn` says its element is empty.  The load factors are the
`double`s of the source taken as exact rationals, and `static_cast<size_t>` of a non-negative
`double` is `Nat.floor`.

The probing loops of the source (`FindIndexImpl`, `FirstAvailableSlot`, the loop of `erase`) run
until they meet a free slot.  Here each runs with `NumBuckets()` as fuel and returns `none` when
the fuel runs out: after that many steps the probe is back where it started, so `none` is a loop
that never ends.
-/

namespace Art

/-- `EmptyFn`: the value `MakeEmpty` writes and the test `IsEmpty` makes. -/
structure EmptyFn (T : Type) where
  makeEmpty : T
  isEmpty : T → Bool

/-- The load factors `SetLoadFactor` accepts: `0 < min < max < 1`. -/
structure LoadFactors where
  min : ℚ
  max : ℚ
  min_pos : 0 < min
  min_lt_max : min < max
  max_lt_one : max < 1

def kMinBuckets : Nat := 1000

structure HashSet (T : Type) where
  numElements : Nat
  numBuckets : Nat
  elementsUntilExpand : Nat
  data : Nat → T
  loadFactors : LoadFactors

namespace HashSet

variable {T : Type} (emptyFn : EmptyFn T) (hashFn : T → Nat) (pred : T → T → Bool)

/-- `HashSet(min_load_factor, max_load_factor)`: no buckets yet. -/
def create (loadFactors : LoadFactors) : HashSet T where
  numElements := 0
  numBuckets := 0
  elementsUntilExpand := 0
  data := fun _ => emptyFn.makeEmpty
  loadFactors := loadFactors

/-- The constructor on a caller's buffer of `buffer_size` slots, which it empties. -/
def createWithBuffer (loadFactors : LoadFactors) (bufferSize : Nat) : HashSet T where
  numElements := 0
  numBuckets := bufferSize
  elementsUntilExpand := ⌊(bufferSize : ℚ) * loadFactors.max⌋₊
  data := fun _ => emptyFn.makeEmpty
  loadFactors := loadFactors

/-- `clear`: the storage is released, so the next insert expands. -/
def clear (s : HashSet T) : HashSet T :=
  { s with numElements := 0, numBuckets := 0, elementsUntilExpand := 0,
           data := fun _ => emptyFn.makeEmpty }

def indexForHash (s : HashSet T) (hash : Nat) : Nat :=
  if s.numBuckets = 0 then 0 else hash % s.numBuckets

def nextIndex (s : HashSet T) (index : Nat) : Nat :=
  if index + 1 ≥ s.numBuckets then 0 else index + 1

/-- The loop of `FindIndexImpl`: the slot of an element equal to `element`, `(true, index)`, or the
free slot that ends the probe, `(false, index)`. -/
def findIndexLoop (s : HashSet T) (element : T) : Nat → Nat → Option (Bool × Nat)
  | 0, _ => none
  | fuel + 1, index =>
    let slot := s.data index
    if emptyFn.isEmpty slot then some (false, index)
    else if pred slot element then some (true, index)
    else findIndexLoop s element fuel (s.nextIndex index)

def findIndexImpl (s : HashSet T) (element : T) (hash : Nat) : Option (Bool × Nat) :=
  findIndexLoop emptyFn pred s element s.numBuckets (s.indexForHash hash)

/-- `FindIndex`: the slot of the element, or `NumBuckets()` (that is, `end()`) when absent. -/
def findIndex (s : HashSet T) (element : T) (hash : Nat) : Option Nat :=
  if s.numBuckets = 0 then some 0
  else (findIndexImpl emptyFn pred s element hash).map fun r => if r.1 then r.2 else s.numBuckets

def find (s : HashSet T) (key : T) : Option Nat :=
  findIndex emptyFn pred s key (hashFn key)

/-- The loop of `FirstAvailableSlot`. -/
def firstAvailableSlotLoop (s : HashSet T) : Nat → Nat → Option Nat
  | 0, _ => none
  | fuel + 1, index =>
    if emptyFn.isEmpty (s.data index) then some index
    else firstAvailableSlotLoop s fuel (s.nextIndex index)

def firstAvailableSlot (s : HashSet T) (index : Nat) : Option Nat :=
  firstAvailableSlotLoop emptyFn s s.numBuckets index

/-- `Verify()`: the number of elements that `FirstAvailableSlot` from their ideal index, run with
the element's own slot emptied, does not find in that slot. -/
def verify (s : HashSet T) : Nat :=
  (List.range s.numBuckets).countP fun i =>
    !emptyFn.isEmpty (s.data i) &&
      firstAvailableSlot emptyFn { s with data := Function.update s.data i emptyFn.makeEmpty }
        (s.indexForHash (hashFn (s.data i))) != some i

/-- One step of the reinsertion loop of `Resize`: the old element at `i`, if any, goes to the first
free slot from its ideal index. -/
def reinsert (old : HashSet T) (t : HashSet T) (i : Nat) : Option (HashSet T) :=
  let element := old.data i
  if emptyFn.isEmpty element then some t
  else
    match firstAvailableSlot emptyFn t (t.indexForHash (hashFn element)) with
    | none => none
    | some slot => some { t with data := Function.update t.data slot element }

/-- `Resize(new_size)`: fresh storage of at least `kMinBuckets` slots, every old element inserted
again in index order, and `elements_until_expand_` recomputed. -/
def resize (s : HashSet T) (newSize : Nat) : Option (HashSet T) :=
  let newSize := if newSize < kMinBuckets then kMinBuckets else newSize
  let fresh : HashSet T :=
    { s with numBuckets := newSize, data := fun _ => emptyFn.makeEmpty }
  match (List.range s.numBuckets).foldlM (reinsert emptyFn hashFn s) fresh with
  | none => none
  | some t => some { t with elementsUntilExpand := ⌊(t.numBuckets : ℚ) * t.loadFactors.max⌋₊ }

/-- `Expand`: resize to `size() / min_load_factor_`. -/
def expand (s : HashSet T) : Option (HashSet T) :=
  resize emptyFn hashFn s ⌊(s.numElements : ℚ) / s.loadFactors.min⌋₊

/-- `InsertWithHash`: expand first when the size has reached `elements_until_expand_`; the
iterator and whether the element was inserted. -/
def insertWithHash (s : HashSet T) (element : T) (hash : Nat) :
    Option (HashSet T × Nat × Bool) :=
  let s' := if s.numElements ≥ s.elementsUntilExpand then expand emptyFn hashFn s else some s
  match s' with
  | none => none
  | some s =>
    match findIndexImpl emptyFn pred s element hash with
    | none => none
    | some (true, index) => some (s, index, false)
    | some (false, index) =>
      some ({ s with data := Function.update s.data index element,
                     numElements := s.numElements + 1 }, index, true)

def insert (s : HashSet T) (element : T) : Option (HashSet T × Nat × Bool) :=
  insertWithHash emptyFn hashFn pred s element (hashFn element)

/-- `NextNonEmptySlot`: the iterator's `operator++`. -/
def nextNonEmptySlotLoop (s : HashSet T) : Nat → Nat → Nat
  | 0, index => index
  | fuel + 1, index =>
    if index + 1 < s.numBuckets ∧ emptyFn.isEmpty (s.data (index + 1)) then
      nextNonEmptySlotLoop s fuel (index + 1)
    else index + 1

def nextNonEmptySlot (s : HashSet T) (index : Nat) : Nat :=
  nextNonEmptySlotLoop emptyFn s s.numBuckets index

/-- The loop of `erase`: backward-shift deletion.  `emptyIndex` is the slot that will become free;
an element further on moves into it unless its ideal index lies in `(emptyIndex, nextIndex]`,
cyclically. -/
def eraseLoop (s : HashSet T) : Nat → Nat → Nat → Bool → Option (HashSet T × Bool)
  | 0, _, _, _ => none
  | fuel + 1, emptyIndex, index, filled =>
    let next := s.nextIndex index
    let nextElement := s.data next
    if emptyFn.isEmpty nextElement then
      some ({ s with data := Function.update s.data emptyIndex emptyFn.makeEmpty }, filled)
    else
      let nextIdealIndex := s.indexForHash (hashFn nextElement)
      let unwrappedNextIndex := if next < emptyIndex then next + s.numBuckets else next
      let unwrappedNextIdealIndex :=
        if nextIdealIndex < emptyIndex then nextIdealIndex + s.numBuckets else nextIdealIndex
      if unwrappedNextIdealIndex ≤ emptyIndex ∨ unwrappedNextIdealIndex > unwrappedNextIndex then
        eraseLoop { s with data := Function.update s.data emptyIndex nextElement } fuel next next
          true
      else eraseLoop s fuel emptyIndex next filled

/-- `erase(it)`: the set without the element at `index`, and the iterator `erase` returns. -/
def erase (s : HashSet T) (index : Nat) : Option (HashSet T × Nat) :=
  match eraseLoop emptyFn hashFn s s.numBuckets index index false with
  | none => none
  | some (t, filled) =>
    let t := { t with numElements := t.numElements - 1 }
    some (t, if filled then index else nextNonEmptySlot emptyFn t index)

def shrinkToMaximumLoad (s : HashSet T) : Option (HashSet T) :=
  resize emptyFn hashFn s ⌊(s.numElements : ℚ) / s.loadFactors.max⌋₊

/-- The rounding loop of `reserve`: count up until `num_buckets * max_load_factor_` exceeds
`num_elements + 1`; `fuel` bounds the steps. -/
def reserveLoop (maxLoadFactor : ℚ) (numElements : Nat) : Nat → Nat → Nat
  | 0, numBuckets => numBuckets
  | fuel + 1, numBuckets =>
    if ⌊(numBuckets : ℚ) * maxLoadFactor⌋₊ ≤ numElements + 1 then
      reserveLoop maxLoadFactor numElements fuel (numBuckets + 1)
    else numBuckets

/-- `reserve(num_elements)`: the loop ends by `(num_elements + 2) / max_load_factor_`, which the
fuel covers. -/
def reserve (s : HashSet T) (numElements : Nat) : Option (HashSet T) :=
  let numBuckets := reserveLoop s.loadFactors.max numElements
    (⌈((numElements : ℚ) + 2) / s.loadFactors.max⌉₊ + 1)
    ⌊(numElements : ℚ) / s.loadFactors.max⌋₊
  if numBuckets > s.numBuckets then resize emptyFn hashFn s numBuckets else some s

/-- `SetLoadFactor`: resize to the mean load factor when the current one is above the new
maximum. -/
def setLoadFactor (s : HashSet T) (loadFactors : LoadFactors) : Option (HashSet T) :=
  let s := { s with loadFactors := loadFactors,
                    elementsUntilExpand := ⌊(s.numBuckets : ℚ) * loadFactors.max⌋₊ }
  if (s.numElements : ℚ) / s.numBuckets > loadFactors.max then
    resize emptyFn hashFn s ⌊(s.numElements : ℚ) / ((loadFactors.min + loadFactors.max) / 2)⌋₊
  else some s

/-- A caller's run of `insert`s, one after the other. -/
def insertAll (s : HashSet T) (elements : List T) : Option (HashSet T) :=
  elements.foldlM (fun s element => (insert emptyFn hashFn pred s element).map (·.1)) s

end HashSet

end Art
