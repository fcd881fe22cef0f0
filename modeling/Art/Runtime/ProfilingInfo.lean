import Art.Lib.Interleaving

/-!
# Inline caches of a `ProfilingInfo` (`runtime/jit/profiling_info.h`, `.cc`)

An inline cache holds `kIndividualCacheSize` class entries, each null or a class.
`AddInvokeInfo(dex_pc, cls)` scans them for `cls` and tries to put `cls` into the first null
entry with a compare-and-set.  When that fails another thread has filled the entry, and `--i`
with the loop's `++i` (through `SIZE_MAX` at 0) looks at the same entry again.

Calls on one cache run concurrently, so a call is a sequence of atomic steps over the shared
entries: the read of an entry at the loop's test, and the compare-and-set.  No garbage collector
clears or moves entries concurrently, so `ReadBarrier::IsMarked` returns the entry it is given.
-/

namespace Art

namespace ProfilingInfo

open Interleaving

/-- `InlineCache::kIndividualCacheSize`. -/
def kIndividualCacheSize : Nat := 5

/-- Where a call of `AddInvokeInfo` is: at the loop's test with the `size_t` index `i`, before the
compare-and-set of entry `i`, which it read as null, or returned. -/
inductive Pc where
  | loop (i : BitVec 64)
  | cas (i : BitVec 64)
  | done
  deriving DecidableEq, Repr

/-- A call of `AddInvokeInfo(dex_pc, cls)` in progress. -/
structure Thread (α : Type) where
  cls : α
  pc : Pc
  deriving DecidableEq, Repr

variable {α : Type} [DecidableEq α]

/-- One atomic step of a call over the cache's entries, `cache->classes_`. -/
def addInvokeInfoStep (entries : List (Option α)) (t : Thread α) :
    Option (List (Option α) × Thread α) :=
  match t.pc with
  | .loop i =>
    if i.toNat < kIndividualCacheSize then
      match entries.getD i.toNat none with
      | some existing =>
        -- the receiver type is already in the cache, or the scan goes on
        if existing = t.cls then some (entries, { t with pc := .done })
        else some (entries, { t with pc := .loop (i + 1) })
      | none => some (entries, { t with pc := .cas i })
    -- every entry holds another class: the cache is megamorphic
    else some (entries, { t with pc := .done })
  | .cas i =>
    -- `CompareAndSetStrongSequentiallyConsistent(null, cls)`
    if entries.getD i.toNat none = none then
      some (entries.set i.toNat (some t.cls), { t with pc := .done })
    else some (entries, { t with pc := .loop (i - 1 + 1) })
  | .done => none

/-- Calls of `AddInvokeInfo` with `classes` on a cache with `entries`, none of them started. -/
def start (entries : List (Option α)) (classes : List α) :
    Config (List (Option α)) (Thread α) :=
  ⟨entries, classes.map fun cls => ⟨cls, .loop 0⟩⟩

end ProfilingInfo

end Art
