import Art.Lib.Transition

/-!
# The futex mutex (`runtime/base/mutex.cc`, `mutex.h`)

A `Mutex` built on futexes keeps one `int32_t`, `state_and_contenders_`: its low bit
(`kHeldMask`) says the mutex is held, and the bits above count the contenders, the threads of
`ExclusiveLock` between their `increment_contenders()` and their `decrement_contenders()`.
`exclusive_owner_` is the owner's tid, `0` (here `none`) for no owner.

Threads run `ExclusiveLock`, `ExclusiveTryLock` and `ExclusiveUnlock` of a non-recursive mutex,
interleaved atomic step by atomic step: each load, compare-and-set, fetch-add and store of the
shared words is one step, with what the thread keeps of `cur_state` in its program counter.  A
thread in `FUTEX_WAIT` sleeps until a `FUTEX_WAKE` picks it, or returns early (`EINTR`,
`ETIMEDOUT`, the wake-all of `WakeupToRespondToEmptyCheckpoint`).  A weak compare-and-set may
fail spuriously, and `WaitBrieflyFor` gives up early once the runtime is deleted.  These choices
are the `fail` action.  The `LOG(FATAL)` of `ExclusiveUnlock` on a mutex that is not held, and the
`DCHECK` that an acquired mutex has no owner, stop the thread (`aborted`).
-/

namespace Art

namespace Mutex

/-- `kHeldMask`. -/
def kHeldMask : BitVec 32 := 1

/-- `kContenderShift`. -/
def kContenderShift : Nat := 1

/-- `kContenderIncrement`. -/
def kContenderIncrement : BitVec 32 := 1 <<< kContenderShift

/-- `kMaxIters` of `WaitBrieflyFor`. -/
def kMaxIters : Nat := 50

/-- Where a thread is in the mutex's code, with its `cur_state` where it has one. -/
inductive Pc
  /-- Outside the mutex's code, not holding it. -/
  | idle
  /-- `ExclusiveLock`: the load at the top of its loop. -/
  | lockLoad
  /-- `ExclusiveLock`: `CompareAndSetWeakAcquire(cur_state, cur_state | kHeldMask)`. -/
  | lockCas (curState : BitVec 32)
  /-- `WaitBrieflyFor`, at its load number `i`. -/
  | lockSpin (curState : BitVec 32) (i : Nat)
  /-- `increment_contenders()`. -/
  | lockIncrement (curState : BitVec 32)
  /-- `futex(FUTEX_WAIT, cur_state)`. -/
  | lockWait (curState : BitVec 32)
  /-- Asleep in the futex. -/
  | lockSleeping (curState : BitVec 32)
  /-- The load after the futex returns. -/
  | lockReload
  /-- `decrement_contenders()`. -/
  | lockDecrement
  /-- `ExclusiveTryLock`: its load. -/
  | tryLoad
  /-- `ExclusiveTryLock`: its compare-and-set. -/
  | tryCas (curState : BitVec 32)
  /-- Acquired: at `DCHECK_EQ(GetExclusiveOwnerTid(), 0)` and the store of `exclusive_owner_`. -/
  | acquired
  /-- Holds the mutex. -/
  | holding
  /-- `ExclusiveUnlock`: its load. -/
  | unlockLoad
  /-- `ExclusiveUnlock`: `exclusive_owner_.store(0)`. -/
  | unlockStoreOwner (curState : BitVec 32)
  /-- `ExclusiveUnlock`: `CompareAndSetWeakRelease(cur_state, new_state)`. -/
  | unlockCas (curState : BitVec 32)
  /-- `ExclusiveUnlock`: `futex(FUTEX_WAKE, kWakeOne)`. -/
  | unlockWake
  /-- Stopped by a `LOG(FATAL)` or a failed `DCHECK`. -/
  | aborted
  deriving DecidableEq, Repr

/-- Asleep in `FUTEX_WAIT`. -/
def Pc.sleeping : Pc → Bool
  | .lockSleeping _ => true
  | _ => false

end Mutex

open Mutex

/-- A mutex and the threads `τ` that use it. -/
structure Mutex (τ : Type) where
  stateAndContenders : BitVec 32
  exclusiveOwner : Option τ
  pc : τ → Pc

namespace Mutex

/-- One atomic step of the threads, or a call. -/
inductive Action (τ : Type)
  /-- An idle thread calls `ExclusiveLock`. -/
  | exclusiveLock (t : τ)
  /-- An idle thread calls `ExclusiveTryLock`. -/
  | exclusiveTryLock (t : τ)
  /-- The thread holding the mutex calls `ExclusiveUnlock`. -/
  | exclusiveUnlock (t : τ)
  /-- The thread's next atomic step. -/
  | step (t : τ)
  /-- The thread's weak compare-and-set fails spuriously, its `WaitBrieflyFor` gives up, or its
  futex wait returns without a wake-up. -/
  | fail (t : τ)
  /-- The thread's `FUTEX_WAKE` wakes `woken`; `none` when no thread sleeps. -/
  | wake (t : τ) (woken : Option τ)

variable {τ : Type} [DecidableEq τ]

/-- The mutex as `Mutex()` leaves it, with every thread idle. -/
def init : Mutex τ := ⟨0, none, fun _ => .idle⟩

/-- Thread `t` goes to `p`. -/
def setPc (s : Mutex τ) (t : τ) (p : Pc) : Mutex τ := { s with pc := Function.update s.pc t p }

@[simp]
theorem setPc_stateAndContenders (s : Mutex τ) (t : τ) (p : Pc) :
    (s.setPc t p).stateAndContenders = s.stateAndContenders := rfl

@[simp]
theorem setPc_exclusiveOwner (s : Mutex τ) (t : τ) (p : Pc) :
    (s.setPc t p).exclusiveOwner = s.exclusiveOwner := rfl

@[simp]
theorem setPc_pc (s : Mutex τ) (t : τ) (p : Pc) : (s.setPc t p).pc = Function.update s.pc t p :=
  rfl

/-- The next atomic step of thread `t`. -/
def stepThread (s : Mutex τ) (t : τ) : Option (Mutex τ) :=
  match s.pc t with
  -- ExclusiveLock
  | .lockLoad =>
    let curState := s.stateAndContenders
    if curState &&& kHeldMask = 0 then some (s.setPc t (.lockCas curState))
    else some (s.setPc t (.lockSpin curState 1))
  | .lockCas curState =>
    if s.stateAndContenders = curState then
      some { s with stateAndContenders := curState ||| kHeldMask,
                    pc := Function.update s.pc t .acquired }
    else some (s.setPc t .lockLoad)
  | .lockSpin curState i =>
    if s.stateAndContenders &&& kHeldMask = 0 then some (s.setPc t .lockLoad)
    else if i < kMaxIters then some (s.setPc t (.lockSpin curState (i + 1)))
    else some (s.setPc t (.lockIncrement curState))
  | .lockIncrement curState =>
    some { s with stateAndContenders := s.stateAndContenders + kContenderIncrement,
                  pc := Function.update s.pc t (.lockWait (curState + kContenderIncrement)) }
  | .lockWait curState =>
    if s.stateAndContenders = curState then some (s.setPc t (.lockSleeping curState))
    else some (s.setPc t .lockReload)
  | .lockReload =>
    let curState := s.stateAndContenders
    if curState &&& kHeldMask ≠ 0 then some (s.setPc t (.lockWait curState))
    else some (s.setPc t .lockDecrement)
  | .lockDecrement =>
    some { s with stateAndContenders := s.stateAndContenders - kContenderIncrement,
                  pc := Function.update s.pc t .lockLoad }
  -- ExclusiveTryLock
  | .tryLoad =>
    let curState := s.stateAndContenders
    if curState &&& kHeldMask = 0 then some (s.setPc t (.tryCas curState))
    else some (s.setPc t .idle)
  | .tryCas curState =>
    if s.stateAndContenders = curState then
      some { s with stateAndContenders := curState ||| kHeldMask,
                    pc := Function.update s.pc t .acquired }
    else some (s.setPc t .tryLoad)
  -- both, once the mutex is acquired
  | .acquired =>
    if s.exclusiveOwner ≠ none then some (s.setPc t .aborted)
    else some { s with exclusiveOwner := some t, pc := Function.update s.pc t .holding }
  -- ExclusiveUnlock
  | .unlockLoad =>
    let curState := s.stateAndContenders
    if curState &&& kHeldMask ≠ 0 then some (s.setPc t (.unlockStoreOwner curState))
    else some (s.setPc t .aborted)
  | .unlockStoreOwner curState =>
    some { s with exclusiveOwner := none, pc := Function.update s.pc t (.unlockCas curState) }
  | .unlockCas curState =>
    if s.stateAndContenders = curState then
      let newState := curState &&& ~~~kHeldMask
      some { s with stateAndContenders := newState,
                    pc := Function.update s.pc t (if newState ≠ 0 then .unlockWake else .idle) }
    else some (s.setPc t .unlockLoad)
  | .idle | .lockSleeping _ | .holding | .unlockWake | .aborted => none

/-- The other outcome of a step that has two. -/
def failThread (s : Mutex τ) (t : τ) : Option (Mutex τ) :=
  match s.pc t with
  | .lockCas _ => some (s.setPc t .lockLoad)
  | .tryCas _ => some (s.setPc t .tryLoad)
  | .unlockCas _ => some (s.setPc t .unlockLoad)
  | .lockSpin curState _ => some (s.setPc t (.lockIncrement curState))
  | .lockSleeping _ => some (s.setPc t .lockReload)
  | _ => none

/-- The system's next state after an action, if the action can be taken. -/
def next [Fintype τ] (s : Mutex τ) : Action τ → Option (Mutex τ)
  | .exclusiveLock t => if s.pc t = .idle then some (s.setPc t .lockLoad) else none
  | .exclusiveTryLock t => if s.pc t = .idle then some (s.setPc t .tryLoad) else none
  | .exclusiveUnlock t => if s.pc t = .holding then some (s.setPc t .unlockLoad) else none
  | .step t => s.stepThread t
  | .fail t => s.failThread t
  | .wake t woken =>
    if s.pc t ≠ .unlockWake then none
    else
      match woken with
      | some u => if (s.pc u).sleeping then some ((s.setPc u .lockReload).setPc t .idle) else none
      | none => if ∀ u, (s.pc u).sleeping = false then some (s.setPc t .idle) else none

end Mutex

end Art
