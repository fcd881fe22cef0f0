import Art.Runtime.Mutex

/-!
# The futex reader-writer mutex (`runtime/base/mutex.cc`, `mutex-inl.h`)

A `ReaderWriterMutex` built on futexes keeps three words: `state_`, `-1` while a writer holds the
mutex and else the number of readers; `exclusive_owner_`, the writer's tid (`0`, here `none`, for
no writer); and `num_contenders_`, the threads between the `fetch_add(1)` and the `fetch_sub(1)`
around a `FUTEX_WAIT`.

Threads run `ExclusiveLock`, `ExclusiveUnlock`, `SharedLock`, `SharedTryLock` and
`SharedUnlock`, interleaved atomic step by atomic step, as in `Art.Runtime.Mutex`.
`ExclusiveLock` and `SharedLock` (with `HandleSharedLockContention`) run one loop: load `state_`;
where the thread may take the mutex, compare-and-set it; else `WaitBrieflyFor` that, and if it
gives up, `num_contenders_.fetch_add(1)`, `FUTEX_WAIT` on the value loaded, `fetch_sub(1)`, and
again.  The two differ in the test (`cur_state == 0`, `cur_state >= 0`) and in the value written
(`-1`, `cur_state + 1`): that is the `Mode` of the loop.  An unlock that leaves `state_` at `0`
loads `num_contenders_` and, if it is positive, wakes every sleeper (`kWakeAll`).

The `DCHECK`s on `state_` and `GetExclusiveOwnerTid()` that follow the loops, or open the unlocks,
are each one step, which stops the thread if it fails (`aborted`), as the `LOG(FATAL)`s of the
unlocks do.  The choices the code leaves to the hardware and the kernel (a weak compare-and-set
that fails spuriously, a `WaitBrieflyFor` that gives up once the runtime is deleted, a
`FUTEX_WAIT` that returns with `EINTR` or to the wake-all of `WakeupToRespondToEmptyCheckpoint`)
are the `fail` action.
-/

namespace Art

namespace ReaderWriterMutex

/-- The lock loop a thread runs: `SharedLock` or `ExclusiveLock`. -/
inductive Mode
  | shared
  | exclusive
  deriving DecidableEq, Repr

/-- The test on `cur_state` before the compare-and-set, which is also what `WaitBrieflyFor`
waits for: `cur_state >= 0` in `SharedLock`, `cur_state == 0` in `ExclusiveLock`. -/
def Mode.mayAcquire : Mode → BitVec 32 → Bool
  | .shared, curState => 0 ≤ curState.toInt
  | .exclusive, curState => curState = 0

/-- What the compare-and-set writes: `cur_state + 1` for another reader, `-1` for the writer. -/
def Mode.newState : Mode → BitVec 32 → BitVec 32
  | .shared, curState => curState + 1
  | .exclusive, _ => -1

/-- Where a thread is in the mutex's code, with its `cur_state` where it has one. -/
inductive Pc
  /-- Outside the mutex's code, not holding it. -/
  | idle
  /-- The load at the top of the lock loop. -/
  | lockLoad (m : Mode)
  /-- `CompareAndSetWeakAcquire(cur_state, …)` of the lock loop. -/
  | lockCas (m : Mode) (curState : BitVec 32)
  /-- `WaitBrieflyFor`, at its load number `i`. -/
  | lockSpin (m : Mode) (curState : BitVec 32) (i : Nat)
  /-- `num_contenders_.fetch_add(1)`. -/
  | lockIncrement (m : Mode) (curState : BitVec 32)
  /-- `futex(state_.Address(), FUTEX_WAIT_PRIVATE, cur_state, …)`. -/
  | lockWait (m : Mode) (curState : BitVec 32)
  /-- Asleep in the futex. -/
  | lockSleeping (m : Mode) (curState : BitVec 32)
  /-- `num_contenders_.fetch_sub(1)`. -/
  | lockDecrement (m : Mode)
  /-- `ExclusiveLock` past its loop: `DCHECK_EQ(state_, -1)`, `DCHECK_EQ(GetExclusiveOwnerTid(), 0)`
  and the store of `exclusive_owner_`. -/
  | acquired
  /-- Holds the mutex exclusively. -/
  | writing
  /-- `SharedLock` past its loop: `DCHECK(GetExclusiveOwnerTid() == 0 || … == -1)`. -/
  | sharedAcquired
  /-- Holds the mutex shared. -/
  | reading
  /-- `SharedTryLock`: its load. -/
  | tryLoad
  /-- `SharedTryLock`: its compare-and-set. -/
  | tryCas (curState : BitVec 32)
  /-- `ExclusiveUnlock`: `DCHECK_NE(GetExclusiveOwnerTid(), 0)`. -/
  | unlockCheck
  /-- `ExclusiveUnlock`: its load. -/
  | unlockLoad
  /-- `ExclusiveUnlock`: `exclusive_owner_.store(0)`. -/
  | unlockStoreOwner
  /-- `ExclusiveUnlock`: `CompareAndSetWeakSequentiallyConsistent(-1, 0)`. -/
  | unlockCas
  /-- `SharedUnlock`: `DCHECK(GetExclusiveOwnerTid() == 0 || … == -1)`. -/
  | sharedUnlockCheck
  /-- `SharedUnlock`: its load. -/
  | sharedUnlockLoad
  /-- `SharedUnlock`: `CompareAndSetWeakSequentiallyConsistent(cur_state, cur_state - 1)`. -/
  | sharedUnlockCas (curState : BitVec 32)
  /-- Either unlock, once it left `state_` at `0`: `num_contenders_.load()`. -/
  | unlockLoadContenders
  /-- Either unlock: `futex(state_.Address(), FUTEX_WAKE_PRIVATE, kWakeAll, …)`. -/
  | unlockWake
  /-- Stopped by a `LOG(FATAL)` or a failed `DCHECK`. -/
  | aborted
  deriving DecidableEq, Repr

/-- Where the lock loop goes once its compare-and-set succeeds. -/
def Mode.acquired : Mode → Pc
  | .shared => .sharedAcquired
  | .exclusive => .acquired

/-- Asleep in `FUTEX_WAIT`. -/
def Pc.sleeping : Pc → Bool
  | .lockSleeping _ _ => true
  | _ => false

/-- Where a `FUTEX_WAKE` puts a thread: a sleeper goes on to its `fetch_sub(1)`. -/
def Pc.woken : Pc → Pc
  | .lockSleeping m _ => .lockDecrement m
  | p => p

/-- What `GetExclusiveOwnerTid()` returns: `0`, `-1` (held by readers) or a thread's tid. -/
inductive OwnerTid (τ : Type)
  | zero
  | shared
  | tid (t : τ)
  deriving DecidableEq, Repr

end ReaderWriterMutex

open ReaderWriterMutex

/-- A reader-writer mutex and the threads `τ` that use it. -/
structure ReaderWriterMutex (τ : Type) where
  state : BitVec 32
  exclusiveOwner : Option τ
  numContenders : BitVec 32
  pc : τ → Pc

namespace ReaderWriterMutex

/-- One atomic step of the threads, or a call. -/
inductive Action (τ : Type)
  /-- An idle thread calls `ExclusiveLock`. -/
  | exclusiveLock (t : τ)
  /-- The writer calls `ExclusiveUnlock`. -/
  | exclusiveUnlock (t : τ)
  /-- An idle thread calls `SharedLock`. -/
  | sharedLock (t : τ)
  /-- An idle thread calls `SharedTryLock`. -/
  | sharedTryLock (t : τ)
  /-- A reader calls `SharedUnlock`. -/
  | sharedUnlock (t : τ)
  /-- The thread's next atomic step. -/
  | step (t : τ)
  /-- The thread's weak compare-and-set fails spuriously, its `WaitBrieflyFor` gives up, or its
  futex wait returns without a wake-up. -/
  | fail (t : τ)

variable {τ : Type}

/-- The mutex as `ReaderWriterMutex()` leaves it, with every thread idle. -/
def init : ReaderWriterMutex τ := ⟨0, none, 0, fun _ => .idle⟩

/-- `GetExclusiveOwnerTid()`. -/
def getExclusiveOwnerTid (s : ReaderWriterMutex τ) : OwnerTid τ :=
  if s.state = 0 then .zero
  else if 0 < s.state.toInt then .shared
  else
    match s.exclusiveOwner with
    | none => .zero
    | some t => .tid t

/-- `IsExclusiveHeld(self)`: `GetExclusiveOwnerTid() == SafeGetTid(self)`. -/
def isExclusiveHeld [DecidableEq τ] (s : ReaderWriterMutex τ) (t : τ) : Bool :=
  s.getExclusiveOwnerTid = .tid t

/-- The `DCHECK(GetExclusiveOwnerTid() == 0 || GetExclusiveOwnerTid() == -1)` of `SharedLock` and
`SharedUnlock`. -/
def sharedOwnerTidOk [DecidableEq τ] (s : ReaderWriterMutex τ) : Bool :=
  s.getExclusiveOwnerTid = .zero || s.getExclusiveOwnerTid = .shared

variable [DecidableEq τ]

/-- Thread `t` goes to `p`. -/
def setPc (s : ReaderWriterMutex τ) (t : τ) (p : Pc) : ReaderWriterMutex τ :=
  { s with pc := Function.update s.pc t p }

@[simp]
theorem setPc_state (s : ReaderWriterMutex τ) (t : τ) (p : Pc) : (s.setPc t p).state = s.state :=
  rfl

@[simp]
theorem setPc_exclusiveOwner (s : ReaderWriterMutex τ) (t : τ) (p : Pc) :
    (s.setPc t p).exclusiveOwner = s.exclusiveOwner := rfl

@[simp]
theorem setPc_numContenders (s : ReaderWriterMutex τ) (t : τ) (p : Pc) :
    (s.setPc t p).numContenders = s.numContenders := rfl

@[simp]
theorem setPc_pc (s : ReaderWriterMutex τ) (t : τ) (p : Pc) :
    (s.setPc t p).pc = Function.update s.pc t p := rfl

/-- The next atomic step of thread `t`. -/
def stepThread (s : ReaderWriterMutex τ) (t : τ) : Option (ReaderWriterMutex τ) :=
  match s.pc t with
  -- the loop of `SharedLock` and `ExclusiveLock`
  | .lockLoad m =>
    let curState := s.state
    if m.mayAcquire curState then some (s.setPc t (.lockCas m curState))
    else some (s.setPc t (.lockSpin m curState 1))
  | .lockCas m curState =>
    if s.state = curState then
      some { s with state := m.newState curState, pc := Function.update s.pc t m.acquired }
    else some (s.setPc t (.lockLoad m))
  | .lockSpin m curState i =>
    if m.mayAcquire s.state then some (s.setPc t (.lockLoad m))
    else if i < Mutex.kMaxIters then some (s.setPc t (.lockSpin m curState (i + 1)))
    else some (s.setPc t (.lockIncrement m curState))
  | .lockIncrement m curState =>
    some { s with numContenders := s.numContenders + 1,
                  pc := Function.update s.pc t (.lockWait m curState) }
  | .lockWait m curState =>
    if s.state = curState then some (s.setPc t (.lockSleeping m curState))
    else some (s.setPc t (.lockDecrement m))
  | .lockDecrement m =>
    some { s with numContenders := s.numContenders - 1,
                  pc := Function.update s.pc t (.lockLoad m) }
  -- `ExclusiveLock`, after its loop
  | .acquired =>
    if s.state ≠ -1 then some (s.setPc t .aborted)
    else if s.getExclusiveOwnerTid ≠ .zero then some (s.setPc t .aborted)
    else some { s with exclusiveOwner := some t, pc := Function.update s.pc t .writing }
  -- `SharedLock`, after its loop
  | .sharedAcquired =>
    if s.sharedOwnerTidOk then some (s.setPc t .reading) else some (s.setPc t .aborted)
  -- `SharedTryLock`
  | .tryLoad =>
    let curState := s.state
    if 0 ≤ curState.toInt then some (s.setPc t (.tryCas curState))
    else some (s.setPc t .idle)
  | .tryCas curState =>
    if s.state = curState then
      some { s with state := curState + 1, pc := Function.update s.pc t .reading }
    else some (s.setPc t .tryLoad)
  -- `ExclusiveUnlock`
  | .unlockCheck =>
    if s.getExclusiveOwnerTid ≠ .zero then some (s.setPc t .unlockLoad)
    else some (s.setPc t .aborted)
  | .unlockLoad =>
    if s.state = -1 then some (s.setPc t .unlockStoreOwner) else some (s.setPc t .aborted)
  | .unlockStoreOwner =>
    some { s with exclusiveOwner := none, pc := Function.update s.pc t .unlockCas }
  | .unlockCas =>
    if s.state = -1 then
      some { s with state := 0, pc := Function.update s.pc t .unlockLoadContenders }
    else some (s.setPc t .unlockLoad)
  -- `SharedUnlock`
  | .sharedUnlockCheck =>
    if s.sharedOwnerTidOk then some (s.setPc t .sharedUnlockLoad) else some (s.setPc t .aborted)
  | .sharedUnlockLoad =>
    let curState := s.state
    if 0 < curState.toInt then some (s.setPc t (.sharedUnlockCas curState))
    else some (s.setPc t .aborted)
  | .sharedUnlockCas curState =>
    if s.state = curState then
      some { s with state := curState - 1,
                    pc := Function.update s.pc t
                      (if curState - 1 = 0 then .unlockLoadContenders else .idle) }
    else some (s.setPc t .sharedUnlockLoad)
  -- both unlocks, once `state_` is `0`
  | .unlockLoadContenders =>
    if 0 < s.numContenders.toInt then some (s.setPc t .unlockWake) else some (s.setPc t .idle)
  | .unlockWake => some { s with pc := Function.update (fun u => (s.pc u).woken) t .idle }
  | .idle | .lockSleeping _ _ | .writing | .reading | .aborted => none

/-- The other outcome of a step that has two. -/
def failThread (s : ReaderWriterMutex τ) (t : τ) : Option (ReaderWriterMutex τ) :=
  match s.pc t with
  | .lockCas m _ => some (s.setPc t (.lockLoad m))
  | .tryCas _ => some (s.setPc t .tryLoad)
  | .unlockCas => some (s.setPc t .unlockLoad)
  | .sharedUnlockCas _ => some (s.setPc t .sharedUnlockLoad)
  | .lockSpin m curState _ => some (s.setPc t (.lockIncrement m curState))
  | .lockSleeping m _ => some (s.setPc t (.lockDecrement m))
  | _ => none

/-- The system's next state after an action, if the action can be taken. -/
def next (s : ReaderWriterMutex τ) : Action τ → Option (ReaderWriterMutex τ)
  | .exclusiveLock t => if s.pc t = .idle then some (s.setPc t (.lockLoad .exclusive)) else none
  | .exclusiveUnlock t => if s.pc t = .writing then some (s.setPc t .unlockCheck) else none
  | .sharedLock t => if s.pc t = .idle then some (s.setPc t (.lockLoad .shared)) else none
  | .sharedTryLock t => if s.pc t = .idle then some (s.setPc t .tryLoad) else none
  | .sharedUnlock t => if s.pc t = .reading then some (s.setPc t .sharedUnlockCheck) else none
  | .step t => s.stepThread t
  | .fail t => s.failThread t

end ReaderWriterMutex

end Art
