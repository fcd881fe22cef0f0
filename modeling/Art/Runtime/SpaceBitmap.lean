import Art.Lib.WordBits
import Art.Runtime.IndirectReferenceTable

/-!
# Space bitmaps (`runtime/gc/accounting/space_bitmap.h`, `-inl.h`, `.cc`)

A `SpaceBitmap<kAlignment>` keeps one bit for every `kAlignment` bytes of the heap
`[heap_begin_, heap_limit_)`: the object at offset `o` from `heap_begin_` has bit
`(o / kAlignment) % kBitsPerIntPtrT` of word `o / kAlignment / kBitsPerIntPtrT`.  The words are
the `bitmap_size_` bytes at `bitmap_begin_`; reading one past them reads outside the bitmap, and
the range walks return `none` when they would.

Addresses are natural numbers and the target is 64-bit.  A bitmap comes from `Create` with a
nonzero capacity and a `heap_begin` that is, like every object in the space, `kAlignment`-aligned;
the structure keeps those facts and the size `ComputeBitmapSize` gives.  A visitor is modelled by
the list of addresses it is called with, and the sweep callback by the list of its batches.
-/

namespace Art

/-- `kBitsPerIntPtrT` on a 64-bit target. -/
def kBitsPerIntPtrT : Nat := 64

/-- `sizeof(intptr_t)` on a 64-bit target. -/
def kIntPtrSize : Nat := 8

/-- A bitmap word, `uintptr_t`. -/
abbrev BitmapWord := BitVec kBitsPerIntPtrT

namespace SpaceBitmap

section Offsets

variable (kAlignment : Nat)

/-- `OffsetToIndex`: the word that holds the bit of heap offset `offset`. -/
def offsetToIndex (offset : Nat) : Nat := offset / kAlignment / kBitsPerIntPtrT

/-- `IndexToOffset`: the heap offset of the first bit of word `index`. -/
def indexToOffset (index : Nat) : Nat := index * kAlignment * kBitsPerIntPtrT

/-- `OffsetBitIndex`: the bit of heap offset `offset` within its word. -/
def offsetBitIndex (offset : Nat) : Nat := (offset / kAlignment) % kBitsPerIntPtrT

/-- `OffsetToMask`. -/
def offsetToMask (offset : Nat) : BitmapWord :=
  BitVec.ofNat kBitsPerIntPtrT 1 <<< offsetBitIndex kAlignment offset

/-- `ComputeBitmapSize(capacity)`, in words: enough words to cover `capacity` heap bytes. -/
def computeBitmapSize (capacity : Nat) : Nat :=
  let kBytesCoveredPerWord := kAlignment * kBitsPerIntPtrT
  roundUp capacity kBytesCoveredPerWord / kBytesCoveredPerWord

end Offsets

end SpaceBitmap

/-- A `SpaceBitmap<kAlignment>`: its words and the heap range it covers. -/
structure SpaceBitmap (kAlignment : Nat) where
  words : List BitmapWord
  heapBegin : Nat
  heapLimit : Nat
  alignment_pos : 0 < kAlignment
  begin_aligned : heapBegin % kAlignment = 0
  begin_lt_limit : heapBegin < heapLimit
  size_eq : words.length = SpaceBitmap.computeBitmapSize kAlignment (heapLimit - heapBegin)

namespace SpaceBitmap

variable {kAlignment : Nat}

/-- `Create(name, heap_begin, heap_capacity)`: a cleared bitmap over `heap_capacity` bytes. -/
def create (heapBegin heapCapacity : Nat) (h : 0 < kAlignment)
    (hbegin : heapBegin % kAlignment = 0) (hcap : 0 < heapCapacity) : SpaceBitmap kAlignment where
  words := List.replicate (computeBitmapSize kAlignment heapCapacity) 0
  heapBegin := heapBegin
  heapLimit := heapBegin + heapCapacity
  alignment_pos := h
  begin_aligned := hbegin
  begin_lt_limit := by omega
  size_eq := by rw [List.length_replicate, Nat.add_sub_cancel_left]

/-- `Test(obj)`. -/
def test (b : SpaceBitmap kAlignment) (addr : Nat) : Bool :=
  let offset := addr - b.heapBegin
  let index := offsetToIndex kAlignment offset
  (b.words.getD index 0 &&& offsetToMask kAlignment offset) != 0

/-- `Modify<kSetBit>(obj)` on the words: the word with the bit of `obj` set, or cleared.  `Set`
only stores when the bit was clear, which leaves the same words. -/
def modify (kSetBit : Bool) (b : SpaceBitmap kAlignment) (addr : Nat) : SpaceBitmap kAlignment :=
  let offset := addr - b.heapBegin
  let index := offsetToIndex kAlignment offset
  let mask := offsetToMask kAlignment offset
  let oldWord := b.words.getD index 0
  let words :=
    if kSetBit then (if oldWord &&& mask = 0 then b.words.set index (oldWord ||| mask) else b.words)
    else b.words.set index (oldWord &&& ~~~mask)
  { b with
    words := words
    size_eq := by
      have := b.size_eq
      unfold words
      split_ifs <;> simp [this] }

/-- `Set(obj)`. -/
def set (b : SpaceBitmap kAlignment) (addr : Nat) : SpaceBitmap kAlignment := b.modify true addr

/-- `Clear(obj)`. -/
def clear (b : SpaceBitmap kAlignment) (addr : Nat) : SpaceBitmap kAlignment := b.modify false addr

section Visit

/-- Iterate on the bits set in word `x`, from the least to the most significant bit:
`visitor(ptr_base + CTZ(x) * kAlignment)` for each. -/
def visitWord (kAlignment ptrBase : Nat) (x : BitmapWord) : List Nat :=
  (WordBits.setBits x).map fun shift => ptrBase + shift * kAlignment

/-- `for (i = index; i < index + n; ++i) { w = bitmap_begin_[i]; ... }`: the visits of the set bits
of `n` whole words. -/
def visitWords (b : SpaceBitmap kAlignment) (index : Nat) : Nat → Option (List Nat)
  | 0 => some []
  | n + 1 => do
    let w ← b.words[index]?
    let rest ← b.visitWords (index + 1) n
    pure (visitWord kAlignment (indexToOffset kAlignment index + b.heapBegin) w ++ rest)

/-- `VisitMarkedRange(visit_begin, visit_end, visitor)`: the addresses the visitor is called with,
or `none` where a word it reads lies outside the bitmap. -/
def visitMarkedRange (b : SpaceBitmap kAlignment) (visitBegin visitEnd : Nat) :
    Option (List Nat) := do
  let offsetStart := visitBegin - b.heapBegin
  let offsetEnd := visitEnd - b.heapBegin
  let indexStart := offsetToIndex kAlignment offsetStart
  let indexEnd := offsetToIndex kAlignment offsetEnd
  let bitStart := (offsetStart / kAlignment) % kBitsPerIntPtrT
  let bitEnd := (offsetEnd / kAlignment) % kBitsPerIntPtrT
  let leftEdge ← b.words[indexStart]?
  -- mask of the lower bits that are not in range
  let leftEdge := leftEdge &&& ~~~((BitVec.ofNat kBitsPerIntPtrT 1 <<< bitStart) - 1)
  if indexStart < indexEnd then
    let left := visitWord kAlignment (indexToOffset kAlignment indexStart + b.heapBegin) leftEdge
    let middle ← b.visitWords (indexStart + 1) (indexEnd - (indexStart + 1))
    -- `visit_end` starts a new word: that word is not read, it could be after the bitmap
    let rightEdge ← if bitEnd = 0 then some 0 else b.words[indexEnd]?
    let rightEdge := rightEdge &&& ((BitVec.ofNat kBitsPerIntPtrT 1 <<< bitEnd) - 1)
    pure (left ++ middle ++
      visitWord kAlignment (indexToOffset kAlignment indexEnd + b.heapBegin) rightEdge)
  else
    -- the right edge is the left edge
    let rightEdge := leftEdge &&& ((BitVec.ofNat kBitsPerIntPtrT 1 <<< bitEnd) - 1)
    pure (visitWord kAlignment (indexToOffset kAlignment indexEnd + b.heapBegin) rightEdge)

/-- The loop under `#if 0` in `VisitMarkedRange`:
`for (i = visit_begin; i < visit_end; i += kAlignment) { if (Test(i)) visitor(i); }`. -/
def visitMarkedRangeReference (b : SpaceBitmap kAlignment) (i visitEnd : Nat) : List Nat :=
  have := b.alignment_pos
  if i < visitEnd then
    (if b.test i then [i] else []) ++ b.visitMarkedRangeReference (i + kAlignment) visitEnd
  else []
termination_by visitEnd - i
decreasing_by omega

/-- `Walk(visitor)`: the set bits of the words `0` to
`OffsetToIndex(HeapLimit() - heap_begin_ - 1)`. -/
def walk (b : SpaceBitmap kAlignment) : Option (List Nat) :=
  let end_ := offsetToIndex kAlignment (b.heapLimit - b.heapBegin - 1)
  b.visitWords 0 (end_ + 1)

end Visit

section ClearRange

/-- `while (begin_offset < end_offset && OffsetBitIndex(begin_offset) != 0)
{ Clear(heap_begin_ + begin_offset); begin_offset += kAlignment; }` -/
def clearRangeHead (b : SpaceBitmap kAlignment) (beginOffset endOffset : Nat) :
    SpaceBitmap kAlignment × Nat :=
  have := b.alignment_pos
  if beginOffset < endOffset ∧ offsetBitIndex kAlignment beginOffset ≠ 0 then
    clearRangeHead (b.clear (b.heapBegin + beginOffset)) (beginOffset + kAlignment) endOffset
  else (b, beginOffset)
termination_by endOffset - beginOffset
decreasing_by omega

/-- `while (begin_offset < end_offset && OffsetBitIndex(end_offset) != 0)
{ end_offset -= kAlignment; Clear(heap_begin_ + end_offset); }` -/
def clearRangeTail (b : SpaceBitmap kAlignment) (beginOffset endOffset : Nat) :
    SpaceBitmap kAlignment × Nat :=
  have := b.alignment_pos
  if beginOffset < endOffset ∧ offsetBitIndex kAlignment endOffset ≠ 0 then
    clearRangeTail (b.clear (b.heapBegin + (endOffset - kAlignment))) beginOffset
      (endOffset - kAlignment)
  else (b, endOffset)
termination_by endOffset - beginOffset
decreasing_by omega

/-- `ClearRange(begin, end)`: the bits of the unaligned ends one at a time, then the whole words
between with `ZeroAndReleasePages`. -/
def clearRange (b : SpaceBitmap kAlignment) (begin_ end_ : Nat) : SpaceBitmap kAlignment :=
  let (b, beginOffset) := b.clearRangeHead (begin_ - b.heapBegin) (end_ - b.heapBegin)
  let (b, endOffset) := b.clearRangeTail beginOffset (end_ - b.heapBegin)
  let startIndex := offsetToIndex kAlignment beginOffset
  let endIndex := offsetToIndex kAlignment endOffset
  { b with
    words := WordBits.storeLoop (fun _ _ => 0) startIndex (endIndex - startIndex) b.words
    size_eq := by rw [WordBits.length_storeLoop]; exact b.size_eq }

end ClearRange

section SweepWalk

/-- One word of `SweepWalk`'s loop: the pointers to garbage, `live & ~mark`, go into the buffer,
which is passed to the callback once it has fewer than `kBitsPerIntPtrT` free slots.  The state is
the buffer's contents and the callback's calls so far. -/
def sweepWord (bufferSize : Nat) (live mark : SpaceBitmap kAlignment)
    (acc : List Nat × List (List Nat)) (i : Nat) : List Nat × List (List Nat) :=
  let garbage := live.words.getD i 0 &&& ~~~(mark.words.getD i 0)
  if garbage ≠ 0 then
    let cur := acc.1 ++ visitWord kAlignment (indexToOffset kAlignment i + live.heapBegin) garbage
    -- make sure that there are always enough slots available for an entire word of one bits
    if bufferSize - kBitsPerIntPtrT ≤ cur.length then ([], acc.2 ++ [cur]) else (cur, acc.2)
  else acc

/-- The size of `SweepWalk`'s buffer, `sizeof(intptr_t) * kBitsPerIntPtrT`; under a memory tool
it also has room for every garbage pointer of the swept words. -/
def sweepBufferSize (live mark : SpaceBitmap kAlignment) (swept : List Nat)
    (isRunningOnMemoryTool : Bool) : Nat :=
  kIntPtrSize * kBitsPerIntPtrT +
    if isRunningOnMemoryTool then
      swept.foldl (fun n i => n + (live.words.getD i 0 &&& ~~~(mark.words.getD i 0)).cpop.toNat) 0
    else 0

/-- `SweepWalk(live_bitmap, mark_bitmap, sweep_begin, sweep_end, callback, arg)`: the pointer
lists the callback is called with, in order, or `none` where a `CHECK` fails. -/
def sweepWalk (live mark : SpaceBitmap kAlignment) (sweepBegin sweepEnd : Nat)
    (isRunningOnMemoryTool : Bool) : Option (List (List Nat)) :=
  if live.heapBegin ≠ mark.heapBegin ∨ live.words.length ≠ mark.words.length ∨
      sweepEnd < sweepBegin ∨ sweepBegin < live.heapBegin then none
  else if sweepEnd ≤ sweepBegin then some []
  else
    let start := offsetToIndex kAlignment (sweepBegin - live.heapBegin)
    let end_ := offsetToIndex kAlignment (sweepEnd - live.heapBegin - 1)
    if live.words.length ≤ end_ then none
    else
      let swept := List.range' start (end_ + 1 - start)
      let bufferSize := sweepBufferSize live mark swept isRunningOnMemoryTool
      let (cur, calls) := swept.foldl (sweepWord bufferSize live mark) ([], [])
      some (if cur ≠ [] then calls ++ [cur] else calls)

end SweepWalk

end SpaceBitmap

end Art
