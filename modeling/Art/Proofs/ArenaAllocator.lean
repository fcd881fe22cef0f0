import Art.Base.ArenaAllocator

/-!
# The 16-byte aligned allocation of the arena allocator

`AllocAlign16` computes its padding as `((ptr_ + 15) & 15) - ptr_`, which keeps the low four bits
of `ptr_ + 15` and subtracts the whole pointer: for every pointer above `bytes + 15` the
difference wraps to nearly `2^64`, so the request never fits and every call takes a new arena,
with the memory tool or without (`allocAlign16_eq_allocFromNewArena`).  The padding meant is
`RoundUp(ptr_, 16) - ptr_`, below 16.  For a pointer no higher than `bytes + 15` the wrapped
padding can fit, and the block then starts at `(ptr_ + 15) & 15`, below 16 and outside the arena.
-/

namespace Art

namespace ArenaAllocator

/-! ## The padding -/

/-- The low four bits of `ptr_ + 15`, which the padding keeps. -/
theorem toNat_add_fifteen_and_fifteen (p : BitVec 64) : ((p + 15) &&& 15).toNat < 16 := by
  rw [BitVec.toNat_and]
  exact Nat.lt_of_le_of_lt Nat.and_le_right (by decide)

/-! ## Every 16-aligned request takes a new arena -/

/-- With the padding wrapped, `padding + bytes` exceeds the room left in the arena. -/
theorem bumpPadded_of_lt {newArena : ArenaAllocator → BitVec 64 → Option (BitVec 64 × ArenaAllocator)}
    {s : ArenaAllocator} {bytes : BitVec 64} (hle : s.ptr ≤ s.end_)
    (hlow : bytes.toNat + 16 ≤ s.ptr.toNat) :
    bumpPadded newArena s (align16Padding s.ptr) bytes = newArena s bytes := by
  rw [bumpPadded, align16Padding, if_pos]
  have hm := toNat_add_fifteen_and_fifteen s.ptr
  generalize (s.ptr + 15) &&& 15 = m at hm ⊢
  bv_omega

/-- For a bump pointer above the request and its padding, `AllocAlign16` takes a new arena,
however much room the current one has. -/
theorem allocAlign16_eq_allocFromNewArena (memoryTool : Bool) (pool : BitVec 64 → Arena)
    {s : ArenaAllocator} {bytes : BitVec 64} (hle : s.ptr ≤ s.end_)
    (hlow : bytes.toNat + 24 ≤ s.ptr.toNat) :
    allocAlign16 memoryTool pool s bytes =
      allocFromNewArena pool s (if memoryTool then bytes + kMemoryToolRedZoneBytes else bytes) := by
  cases memoryTool with
  | false => exact bumpPadded_of_lt hle (by omega)
  | true =>
    -- the red zone makes the request `bytes + 8`
    have hred : (bytes + kMemoryToolRedZoneBytes).toNat + 16 ≤ s.ptr.toNat := by
      rw [kMemoryToolRedZoneBytes]
      bv_omega
    exact bumpPadded_of_lt hle hred

/-- An empty arena of 4 KiB at `0x1000` and a 16-byte request without the memory tool. -/
theorem allocAlign16_eq_allocFromNewArena_empty :
    allocAlign16 false (fun size => ⟨0x100000, size, 0⟩)
        ⟨0x1000, 0x2000, 0x1000, [⟨0x1000, 0x1000, 0⟩]⟩ 16 =
      allocFromNewArena (fun size => ⟨0x100000, size, 0⟩)
        ⟨0x1000, 0x2000, 0x1000, [⟨0x1000, 0x1000, 0⟩]⟩ 16 :=
  allocAlign16_eq_allocFromNewArena false _ (by decide) (by decide)

/-- An empty arena of 4 KiB at `0x1000`: a 16-byte request, which fits with no padding at all,
goes to a new arena (here one at `0x100000`).  With a 16 KiB arena at `0x1000`, a request of
`0x1000` bytes fits with the wrapped padding and comes back at address `15`. -/
theorem alloc_align16_new_arena_with_room :
    let s : ArenaAllocator := ⟨0x1000, 0x2000, 0x1000, [⟨0x1000, 0x1000, 0⟩]⟩
    let pool : BitVec 64 → Arena := fun size => ⟨0x100000, size, 0⟩
    (roundUp s.ptr 16 - s.ptr) + 16 ≤ s.end_ - s.ptr ∧
      allocAlign16 false pool s 16 = allocFromNewArena pool s 16 ∧
      (allocAlign16 false pool s 16).map Prod.fst = some 0x100000 ∧
      (allocAlign16 false pool ⟨0x1000, 0x5000, 0x1000, [⟨0x1000, 0x4000, 0⟩]⟩ 0x1000).map
        Prod.fst = some 15 := by
  decide

end ArenaAllocator

end Art
