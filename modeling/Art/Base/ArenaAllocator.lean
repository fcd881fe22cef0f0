import Mathlib

/-!
# The arena allocator (`libartbase/base/arena_allocator.h`, `arena_allocator.cc`)

An `ArenaAllocator` hands out memory from a chain of arenas that it takes from an `ArenaPool`.
It bumps `ptr_` through the current arena, `[begin_, end_)`; a request that does not fit goes to
`AllocFromNewArena`, which takes a fresh arena and either switches to it or, when the old arena
has more room left, chains the fresh one behind the head and keeps bumping in the old one.
`Realloc` extends the last allocation in place when there is room.

Pointers and sizes are `uintptr_t` and `size_t` values, words of 64 bits with arithmetic
modulo `2^64`.  The pool's answer to `AllocArena(size)` is a parameter `pool`: the arena it would
return for each size asked for.  A null dereference is `none`.  Under a memory tool every block
gets a red zone after it; what the tool marks accessible is not modelled.
-/

namespace Art

/-- `kAlignment`: every block starts 8-aligned. -/
def kAlignment : BitVec 64 := 8

/-- `kArenaAlignment`: the pool's arenas start 16-aligned. -/
def kArenaAlignment : Nat := 16

/-- `kMemoryToolRedZoneBytes`. -/
def kMemoryToolRedZoneBytes : BitVec 64 := 8

/-- `arena_allocator::kArenaDefaultSize` without precise tracking: `128 * KB`. -/
def kArenaDefaultSize : BitVec 64 := 128 * 1024

/-- An `Arena`: `size_` bytes at `memory_`, of which the first `bytes_allocated_` are in use. -/
structure Arena where
  memory : BitVec 64
  size : BitVec 64
  bytesAllocated : BitVec 64
  deriving DecidableEq, Repr

/-- `Begin()`. -/
def Arena.begin (a : Arena) : BitVec 64 := a.memory

/-- `End()`. -/
def Arena.end_ (a : Arena) : BitVec 64 := a.memory + a.size

/-- The fields of an `ArenaAllocator`: the current arena's `begin_` and `end_`, the bump pointer
`ptr_`, and the chain from `arena_head_`. -/
structure ArenaAllocator where
  begin : BitVec 64
  end_ : BitVec 64
  ptr : BitVec 64
  arenaHead : List Arena
  deriving DecidableEq, Repr

namespace ArenaAllocator

/-- `RoundDown(x, n)` of `bit_utils.h` on a `size_t`, for a power of two `n`: `x & -n`. -/
def roundDown (x n : BitVec 64) : BitVec 64 := x &&& -n

/-- `RoundUp(x, n)`: `RoundDown(x + n - 1, n)`, which wraps for `x` near `2^64`. -/
def roundUp (x n : BitVec 64) : BitVec 64 := roundDown (x + n - 1) n

/-- `ArenaAllocator(pool)`: every pointer null and no arena. -/
def create : ArenaAllocator := ⟨0, 0, 0, []⟩

/-- `UpdateBytesAllocated()`: the head arena records how much of it is used. -/
def updateBytesAllocated (s : ArenaAllocator) : ArenaAllocator :=
  match s.arenaHead with
  | [] => s
  | head :: rest => { s with arenaHead := { head with bytesAllocated := s.ptr - s.begin } :: rest }

/-- `AllocFromNewArena(bytes)`: the block is at the start of the fresh arena. -/
def allocFromNewArena (pool : BitVec 64 → Arena) (s : ArenaAllocator) (bytes : BitVec 64) :
    Option (BitVec 64 × ArenaAllocator) :=
  -- `std::max(kArenaDefaultSize, bytes)`
  let newArena := pool (if kArenaDefaultSize < bytes then bytes else kArenaDefaultSize)
  if s.end_ - s.ptr > newArena.size - bytes then
    -- the old arena has more space remaining than the new one, so keep using it
    match s.arenaHead with
    | [] => none
    | head :: rest =>
      some (newArena.begin,
        { s with arenaHead := head :: { newArena with bytesAllocated := bytes } :: rest })
  else
    let s := s.updateBytesAllocated
    some (newArena.begin,
      { begin := newArena.begin
        ptr := newArena.begin + bytes
        end_ := newArena.end_
        arenaHead := newArena :: s.arenaHead })

/-- `AllocFromNewArenaWithMemoryTool(bytes)`: the same block; it only marks the rest of the
fresh arena inaccessible. -/
def allocFromNewArenaWithMemoryTool (pool : BitVec 64 → Arena) (s : ArenaAllocator)
    (bytes : BitVec 64) : Option (BitVec 64 × ArenaAllocator) :=
  allocFromNewArena pool s bytes

/-- Hand out `bytes` at `ptr_` when they fit before `end_`, else take a new arena. -/
def bump (newArena : ArenaAllocator → BitVec 64 → Option (BitVec 64 × ArenaAllocator))
    (s : ArenaAllocator) (bytes : BitVec 64) : Option (BitVec 64 × ArenaAllocator) :=
  if bytes > s.end_ - s.ptr then newArena s bytes
  else some (s.ptr, { s with ptr := s.ptr + bytes })

/-- `AllocWithMemoryTool(bytes)`: a red zone after the block, rounded to 8 bytes. -/
def allocWithMemoryTool (pool : BitVec 64 → Arena) (s : ArenaAllocator) (bytes : BitVec 64) :
    Option (BitVec 64 × ArenaAllocator) :=
  let roundedBytes := roundUp (bytes + kMemoryToolRedZoneBytes) 8
  bump (allocFromNewArenaWithMemoryTool pool) s roundedBytes

/-- `Alloc(bytes)`. -/
def alloc (memoryTool : Bool) (pool : BitVec 64 → Arena) (s : ArenaAllocator)
    (bytes : BitVec 64) : Option (BitVec 64 × ArenaAllocator) :=
  if memoryTool then allocWithMemoryTool pool s bytes
  else bump (allocFromNewArena pool) s (roundUp bytes kAlignment)

/-- The padding both 16-aligned paths compute: `((ptr_ + 15) & 15) - ptr_`. -/
def align16Padding (ptr : BitVec 64) : BitVec 64 := ((ptr + 15) &&& 15) - ptr

/-- Skip `padding` and hand out `bytes` when both fit before `end_`, else take a new arena. -/
def bumpPadded (newArena : ArenaAllocator → BitVec 64 → Option (BitVec 64 × ArenaAllocator))
    (s : ArenaAllocator) (padding bytes : BitVec 64) : Option (BitVec 64 × ArenaAllocator) :=
  if padding + bytes > s.end_ - s.ptr then newArena s bytes
  else
    let ret := s.ptr + padding
    some (ret, { s with ptr := ret + bytes })

/-- `AllocWithMemoryToolAlign16(bytes)`. -/
def allocWithMemoryToolAlign16 (pool : BitVec 64 → Arena) (s : ArenaAllocator)
    (bytes : BitVec 64) : Option (BitVec 64 × ArenaAllocator) :=
  let roundedBytes := bytes + kMemoryToolRedZoneBytes
  bumpPadded (allocFromNewArenaWithMemoryTool pool) s (align16Padding s.ptr) roundedBytes

/-- `AllocAlign16(bytes)`, for a size that is a multiple of 16. -/
def allocAlign16 (memoryTool : Bool) (pool : BitVec 64 → Arena) (s : ArenaAllocator)
    (bytes : BitVec 64) : Option (BitVec 64 × ArenaAllocator) :=
  if memoryTool then allocWithMemoryToolAlign16 pool s bytes
  else bumpPadded (allocFromNewArena pool) s (align16Padding s.ptr) bytes

/-- `Realloc(ptr, ptr_size, new_size)`: the last block grows in place when the arena has room,
otherwise the data moves to a new block (the caller's `memcpy` of `ptr_size` bytes). -/
def realloc (memoryTool : Bool) (pool : BitVec 64 → Arena) (s : ArenaAllocator)
    (ptr ptrSize newSize : BitVec 64) : Option (BitVec 64 × ArenaAllocator) :=
  let alignedPtrSize := roundUp ptrSize kAlignment
  let end_ := ptr + alignedPtrSize
  -- if we haven't allocated anything else, we can safely extend
  if end_ = s.ptr then
    let alignedNewSize := roundUp newSize kAlignment
    let sizeDelta := alignedNewSize - alignedPtrSize
    let remain := s.end_ - s.ptr
    if remain ≥ sizeDelta then some (ptr, { s with ptr := s.ptr + sizeDelta })
    else alloc memoryTool pool s newSize
  else alloc memoryTool pool s newSize

end ArenaAllocator

end Art
