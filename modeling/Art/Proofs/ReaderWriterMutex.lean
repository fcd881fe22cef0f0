import Art.Runtime.ReaderWriterMutex

/-!
# Readers and writers of the futex reader-writer mutex

Over every interleaving of `ExclusiveLock`, `ExclusiveUnlock`, `SharedLock`, `SharedTryLock` and
`SharedUnlock` from `ReaderWriterMutex()`: at most one thread writes, and never while a thread
reads; `state_` is `-1` exactly while a thread writes and else counts the readers;
`num_contenders_` counts the threads around a `FUTEX_WAIT`; no `LOG(FATAL)` or `DCHECK` fires;
a thread asleep in the futex has a thread that holds the mutex, whose unlock will wake it, or
one about to wake every sleeper; and `IsExclusiveHeld` holds of a thread only while it writes.

As for `Mutex` (`Art.Proofs.Mutex`), `Step` says once what an action can do (`next_step`), and
the invariant `Inv` is kept by each of its cases.  The threads are any finite type with fewer
than `2 ^ 31` members, so that neither count overflows its `int32_t`.
-/

namespace Art

namespace ReaderWriterMutex

open Transition

/-! ## Program counters -/

-- The predicates list every program counter: a wildcard makes their equation lemmas slow.

/-- From the compare-and-set that wrote `-1` to the one that wrote `0`. -/
def Pc.writes : Pc → Bool
  | .acquired | .writing | .unlockCheck | .unlockLoad | .unlockStoreOwner | .unlockCas => true
  | .idle | .lockLoad _ | .lockCas _ _ | .lockSpin _ _ _ | .lockIncrement _ _ | .lockWait _ _
  | .lockSleeping _ _ | .lockDecrement _ | .sharedAcquired | .reading | .tryLoad | .tryCas _
  | .sharedUnlockCheck | .sharedUnlockLoad | .sharedUnlockCas _ | .unlockLoadContenders
  | .unlockWake | .aborted => false

/-- From the compare-and-set that added the thread to `state_` to the one that took it away. -/
def Pc.reads : Pc → Bool
  | .sharedAcquired | .reading | .sharedUnlockCheck | .sharedUnlockLoad | .sharedUnlockCas _ =>
    true
  | .idle | .lockLoad _ | .lockCas _ _ | .lockSpin _ _ _ | .lockIncrement _ _ | .lockWait _ _
  | .lockSleeping _ _ | .lockDecrement _ | .acquired | .writing | .tryLoad | .tryCas _
  | .unlockCheck | .unlockLoad | .unlockStoreOwner | .unlockCas | .unlockLoadContenders
  | .unlockWake | .aborted => false

/-- Between `num_contenders_.fetch_add(1)` and `fetch_sub(1)`. -/
def Pc.contends : Pc → Bool
  | .lockWait _ _ | .lockSleeping _ _ | .lockDecrement _ => true
  | .idle | .lockLoad _ | .lockCas _ _ | .lockSpin _ _ _ | .lockIncrement _ _ | .acquired
  | .writing | .sharedAcquired | .reading | .tryLoad | .tryCas _ | .unlockCheck | .unlockLoad
  | .unlockStoreOwner | .unlockCas | .sharedUnlockCheck | .sharedUnlockLoad | .sharedUnlockCas _
  | .unlockLoadContenders | .unlockWake | .aborted => false

/-- An unlock that left `state_` at `0`, before its `FUTEX_WAKE` returns. -/
def Pc.waking : Pc → Bool
  | .unlockLoadContenders | .unlockWake => true
  | .idle | .lockLoad _ | .lockCas _ _ | .lockSpin _ _ _ | .lockIncrement _ _ | .lockWait _ _
  | .lockSleeping _ _ | .lockDecrement _ | .acquired | .writing | .sharedAcquired | .reading
  | .tryLoad | .tryCas _ | .unlockCheck | .unlockLoad | .unlockStoreOwner | .unlockCas
  | .sharedUnlockCheck | .sharedUnlockLoad | .sharedUnlockCas _ | .aborted => false

/-- Where `exclusive_owner_` is the thread's tid: from its store in `ExclusiveLock` to the first
load of `ExclusiveUnlock`. -/
def Pc.owner : Pc → Bool
  | .writing | .unlockCheck => true
  | .idle | .lockLoad _ | .lockCas _ _ | .lockSpin _ _ _ | .lockIncrement _ _ | .lockWait _ _
  | .lockSleeping _ _ | .lockDecrement _ | .acquired | .sharedAcquired | .reading | .tryLoad
  | .tryCas _ | .unlockLoad | .unlockStoreOwner | .unlockCas | .sharedUnlockCheck
  | .sharedUnlockLoad | .sharedUnlockCas _ | .unlockLoadContenders | .unlockWake
  | .aborted => false

/-- Where `exclusive_owner_` may be the thread's tid: also in the loop of `ExclusiveUnlock`
before its store of `0`, which a failed compare-and-set runs again. -/
def Pc.named : Pc → Bool
  | .writing | .unlockCheck | .unlockLoad | .unlockStoreOwner => true
  | .idle | .lockLoad _ | .lockCas _ _ | .lockSpin _ _ _ | .lockIncrement _ _ | .lockWait _ _
  | .lockSleeping _ _ | .lockDecrement _ | .acquired | .sharedAcquired | .reading | .tryLoad
  | .tryCas _ | .unlockCas | .sharedUnlockCheck | .sharedUnlockLoad | .sharedUnlockCas _
  | .unlockLoadContenders | .unlockWake | .aborted => false

/-- The `cur_state` a thread keeps agrees with the branch its code took on it. -/
def Pc.CurOk : Pc → Prop
  | .lockCas m c => m.mayAcquire c
  | .lockSpin m c _ | .lockIncrement m c | .lockWait m c => m.mayAcquire c = false
  | .tryCas c => 0 ≤ c.toInt
  | .sharedUnlockCas c => 0 < c.toInt
  | .idle | .lockLoad _ | .lockSleeping _ _ | .lockDecrement _ | .acquired | .writing
  | .sharedAcquired | .reading | .tryLoad | .unlockCheck | .unlockLoad | .unlockStoreOwner
  | .unlockCas | .sharedUnlockCheck | .sharedUnlockLoad | .unlockLoadContenders | .unlockWake
  | .aborted => True

theorem Pc.writes_of_named {p : Pc} (h : p.named) : p.writes := by
  cases p <;> simp [Pc.named, Pc.writes] at h ⊢

theorem Pc.named_of_owner {p : Pc} (h : p.owner) : p.named := by
  cases p <;> simp [Pc.owner, Pc.named] at h ⊢

theorem Pc.contends_of_sleeping {p : Pc} (h : p.sleeping) : p.contends := by
  cases p <;> simp [Pc.sleeping, Pc.contends] at h ⊢

theorem Pc.sleeping_woken (p : Pc) : p.woken.sleeping = false := by
  cases p <;> rfl

/-- What does not tell a sleeper from a thread at its `fetch_sub(1)` does not see a wake-up. -/
theorem Pc.apply_woken {α : Type} (f : Pc → α)
    (hf : ∀ m c, f (.lockDecrement m) = f (.lockSleeping m c)) (p : Pc) : f p.woken = f p := by
  cases p
  case lockSleeping m c => exact hf m c
  all_goals rfl

/-! ## The words -/

theorem toInt_eq_toNat_of_lt_two_pow_31 {c : BitVec 32} (h : c.toNat < 2 ^ 31) :
    c.toInt = c.toNat :=
  BitVec.toInt_eq_toNat_of_lt (by omega)

/-- A non-negative `int32_t` plus one does not wrap. -/
theorem toNat_add_one_of_nonneg {c : BitVec 32} (h : 0 ≤ c.toInt) :
    (c + 1).toNat = c.toNat + 1 := by
  have hone : (1 : BitVec 32).toNat = 1 := rfl
  rw [BitVec.toInt_pos_iff] at h
  rw [BitVec.toNat_add, hone]
  exact Nat.mod_eq_of_lt (by omega)

theorem add_one_ne_zero_of_nonneg {c : BitVec 32} (h : 0 ≤ c.toInt) : c + 1 ≠ 0 := by
  intro h0
  have := congrArg BitVec.toNat h0
  rw [toNat_add_one_of_nonneg h] at this
  simp at this

theorem toNat_sub_one_of_pos {c : BitVec 32} (h : 0 < c.toNat) : (c - 1).toNat = c.toNat - 1 := by
  have hone : (1 : BitVec 32).toNat = 1 := rfl
  rw [BitVec.toNat_sub_of_le (by rw [BitVec.le_def, hone]; omega), hone]

theorem toNat_pos_of_toInt_pos {c : BitVec 32} (h : 0 < c.toInt) : 0 < c.toNat := by
  rw [BitVec.toInt_eq_toNat_cond] at h
  split at h <;> omega

theorem mayAcquire_eq_false_ne_zero {m : Mode} {c : BitVec 32} (h : m.mayAcquire c = false) :
    c ≠ 0 := by
  rintro rfl
  cases m <;> simp [Mode.mayAcquire] at h

theorem neg_one_ne_zero : (-1 : BitVec 32) ≠ 0 := by decide

theorem toInt_neg_one : (-1 : BitVec 32).toInt = -1 := by decide

/-! ## `GetExclusiveOwnerTid()` -/

section OwnerTid

variable {τ : Type} {s : ReaderWriterMutex τ} {t : τ}

theorem getExclusiveOwnerTid_eq_tid (h : s.state = -1) (ho : s.exclusiveOwner = some t) :
    s.getExclusiveOwnerTid = .tid t := by
  simp [getExclusiveOwnerTid, h, ho]

theorem getExclusiveOwnerTid_eq_zero (h : s.state = -1) (ho : s.exclusiveOwner = none) :
    s.getExclusiveOwnerTid = .zero := by
  simp [getExclusiveOwnerTid, h, ho]

theorem getExclusiveOwnerTid_eq_shared (h : 0 < s.state.toInt) :
    s.getExclusiveOwnerTid = .shared := by
  have h0 : s.state ≠ 0 := by
    rintro h0
    simp [h0] at h
  unfold getExclusiveOwnerTid
  rw [if_neg h0, if_pos h]

/-- `GetExclusiveOwnerTid()` returns a tid only from `exclusive_owner_`. -/
theorem exclusiveOwner_of_getExclusiveOwnerTid (h : s.getExclusiveOwnerTid = .tid t) :
    s.exclusiveOwner = some t := by
  unfold getExclusiveOwnerTid at h
  split_ifs at h
  split at h
  · cases h
  · cases h
    assumption

end OwnerTid

/-! ## What one thread can do -/

section Moves

variable {τ : Type}

/-- The moves of one thread that write no shared word, with the guards the invariant needs; `s`
is the state the thread reads.  A move with two causes in the code (a failed and a spurious
compare-and-set, say) is one constructor without the guard. -/
inductive Move (s : ReaderWriterMutex τ) : Pc → Pc → Prop
  | lock (m : Mode) : Move s .idle (.lockLoad m)
  | sharedTryLock : Move s .idle .tryLoad
  | exclusiveUnlock : Move s .writing .unlockCheck
  | sharedUnlock : Move s .reading .sharedUnlockCheck
  | lockLoadMay (m : Mode) (h : m.mayAcquire s.state) : Move s (.lockLoad m) (.lockCas m s.state)
  | lockLoadWait (m : Mode) (h : m.mayAcquire s.state = false) :
      Move s (.lockLoad m) (.lockSpin m s.state 1)
  | lockCasFail (m : Mode) (c : BitVec 32) : Move s (.lockCas m c) (.lockLoad m)
  | lockSpinDone (m : Mode) (c : BitVec 32) (i : Nat) : Move s (.lockSpin m c i) (.lockLoad m)
  | lockSpinAgain (m : Mode) (c : BitVec 32) (i : Nat) :
      Move s (.lockSpin m c i) (.lockSpin m c (i + 1))
  | lockSpinGiveUp (m : Mode) (c : BitVec 32) (i : Nat) :
      Move s (.lockSpin m c i) (.lockIncrement m c)
  | lockSleep (m : Mode) (c : BitVec 32) (h : s.state = c) :
      Move s (.lockWait m c) (.lockSleeping m c)
  | lockWaitFail (m : Mode) (c : BitVec 32) : Move s (.lockWait m c) (.lockDecrement m)
  | lockWoken (m : Mode) (c : BitVec 32) : Move s (.lockSleeping m c) (.lockDecrement m)
  | acquiredAbort (h : s.state ≠ -1 ∨ s.getExclusiveOwnerTid ≠ .zero) :
      Move s .acquired .aborted
  | sharedAcquiredOk : Move s .sharedAcquired .reading
  | sharedAcquiredAbort (u : τ) (h : s.getExclusiveOwnerTid = .tid u) :
      Move s .sharedAcquired .aborted
  | tryLoadFree (h : 0 ≤ s.state.toInt) : Move s .tryLoad (.tryCas s.state)
  | tryLoadHeld : Move s .tryLoad .idle
  | tryCasFail (c : BitVec 32) : Move s (.tryCas c) .tryLoad
  | unlockCheckOk : Move s .unlockCheck .unlockLoad
  | unlockCheckAbort (h : s.getExclusiveOwnerTid = .zero) : Move s .unlockCheck .aborted
  | unlockLoadHeld : Move s .unlockLoad .unlockStoreOwner
  | unlockLoadAbort (h : s.state ≠ -1) : Move s .unlockLoad .aborted
  | unlockCasFail : Move s .unlockCas .unlockLoad
  | sharedUnlockCheckOk : Move s .sharedUnlockCheck .sharedUnlockLoad
  | sharedUnlockCheckAbort (u : τ) (h : s.getExclusiveOwnerTid = .tid u) :
      Move s .sharedUnlockCheck .aborted
  | sharedUnlockLoadHeld (h : 0 < s.state.toInt) :
      Move s .sharedUnlockLoad (.sharedUnlockCas s.state)
  | sharedUnlockLoadAbort (h : ¬ 0 < s.state.toInt) : Move s .sharedUnlockLoad .aborted
  | sharedUnlockCasFail (c : BitVec 32) : Move s (.sharedUnlockCas c) .sharedUnlockLoad
  | loadContendersWake : Move s .unlockLoadContenders .unlockWake
  | loadContendersNone (h : ¬ 0 < s.numContenders.toInt) : Move s .unlockLoadContenders .idle

namespace Move

variable {s : ReaderWriterMutex τ} {p q : Pc}

theorem writes_eq (hm : Move s p q) (hq : q ≠ .aborted) : p.writes = q.writes := by
  cases hm <;> first | rfl | exact absurd rfl hq

theorem reads_eq (hm : Move s p q) (hq : q ≠ .aborted) : p.reads = q.reads := by
  cases hm <;> first | rfl | exact absurd rfl hq

theorem contends_eq (hm : Move s p q) : p.contends = q.contends := by
  cases hm <;> rfl

theorem curOk (hm : Move s p q) (hp : p.CurOk) : q.CurOk := by
  cases hm <;> simp_all [Pc.CurOk]

theorem named (hm : Move s p q) (hp : p.named) (hq : q ≠ .aborted) : q.named := by
  cases hm <;> simp_all [Pc.named]

theorem owner (hm : Move s p q) (hq : q.owner) : p.owner := by
  cases hm <;> simp_all [Pc.owner]

/-- A thread goes to sleep only on a `state_` that is not `0`. -/
theorem state_ne_zero_of_sleeping (hm : Move s p q) (hp : p.CurOk) (hq : q.sleeping) :
    s.state ≠ 0 := by
  cases hm
  case lockSleep m c hc =>
    rw [hc]
    exact mayAcquire_eq_false_ne_zero hp
  all_goals simp [Pc.sleeping] at hq

/-- An unlock leaves its wake-up only for its `FUTEX_WAKE`, or when it loads no contender. -/
theorem of_waking (hm : Move s p q) (hp : p.waking) :
    q.waking ∨ ¬ 0 < s.numContenders.toInt := by
  cases hm
  case loadContendersWake => exact .inl rfl
  case loadContendersNone h => exact .inr h
  all_goals simp [Pc.waking] at hp

end Move

end Moves

/-! ## The invariant -/

section Invariant

variable {τ : Type} [Fintype τ]

/-- No sleeper is stranded: `state_` is not `0`, so a thread holds the mutex and its unlock will
see the contender, or an unlock is on its way to waking every sleeper. -/
def NoLostWakeup (pc : τ → Pc) (state : BitVec 32) : Prop :=
  (∃ t, (pc t).sleeping) → state ≠ 0 ∨ ∃ t, (pc t).waking

/-- What holds of the mutex after every run. -/
structure Inv (s : ReaderWriterMutex τ) : Prop where
  writers_le_one : count s.pc Pc.writes ≤ 1
  /-- While a thread writes, `state_` is `-1` and no thread reads. -/
  writer_state : 0 < count s.pc Pc.writes → s.state = -1 ∧ count s.pc Pc.reads = 0
  /-- Else `state_` is the number of readers. -/
  reader_state : count s.pc Pc.writes = 0 → s.state.toNat = count s.pc Pc.reads
  contenders_eq : s.numContenders.toNat = count s.pc Pc.contends
  cur_ok : ∀ t, (s.pc t).CurOk
  owner_named : ∀ t, s.exclusiveOwner = some t → (s.pc t).named
  owner_eq : ∀ t, (s.pc t).owner → s.exclusiveOwner = some t
  not_aborted : ∀ t, s.pc t ≠ .aborted
  wakeup : NoLostWakeup s.pc s.state

namespace Inv

variable {s : ReaderWriterMutex τ} {t : τ} {q : Pc}

theorem eq_of_writes (h : Inv s) {u : τ} (ht : (s.pc t).writes) (hu : (s.pc u).writes) : t = u :=
  eq_of_count_le_one h.writers_le_one ht hu

theorem state_of_writes (h : Inv s) (ht : (s.pc t).writes) : s.state = -1 :=
  (h.writer_state (count_pos_iff.2 ⟨t, ht⟩)).1

theorem count_writes_of_reads (h : Inv s) (ht : (s.pc t).reads) : count s.pc Pc.writes = 0 := by
  by_contra hne
  have hzero := (h.writer_state (Nat.pos_of_ne_zero hne)).2
  have hpos : 0 < count s.pc Pc.reads := count_pos_iff.2 ⟨t, ht⟩
  omega

/-- No thread reads while one writes. -/
theorem reads_eq_false (h : Inv s) (ht : (s.pc t).writes) (u : τ) : (s.pc u).reads = false := by
  cases hu : (s.pc u).reads
  · rfl
  · have hzero := h.count_writes_of_reads hu
    have hpos : 0 < count s.pc Pc.writes := count_pos_iff.2 ⟨t, ht⟩
    omega

/-- While a thread reads, `state_` is positive. -/
theorem toInt_state_pos (h : Inv s) (hτ : Fintype.card τ < 2 ^ 31) (ht : (s.pc t).reads) :
    0 < s.state.toInt := by
  have hstate := h.reader_state (h.count_writes_of_reads ht)
  have hpos : 0 < count s.pc Pc.reads := count_pos_iff.2 ⟨t, ht⟩
  have hle := count_le s.pc Pc.reads
  rw [toInt_eq_toNat_of_lt_two_pow_31 (by omega)]
  omega

/-- With no writer, `exclusive_owner_` is `0`. -/
theorem owner_eq_none_of_free (h : Inv s) (h0 : count s.pc Pc.writes = 0) :
    s.exclusiveOwner = none := by
  cases ho : s.exclusiveOwner with
  | none => rfl
  | some u =>
    have hpos : 0 < count s.pc Pc.writes :=
      count_pos_iff.2 ⟨u, Pc.writes_of_named (h.owner_named u ho)⟩
    omega

/-- A writer outside the span where `exclusive_owner_` may name it leaves it at `0`. -/
theorem owner_eq_none (h : Inv s) (ht : (s.pc t).writes) (hn : (s.pc t).named = false) :
    s.exclusiveOwner = none := by
  cases ho : s.exclusiveOwner with
  | none => rfl
  | some u =>
    have hu := h.owner_named u ho
    have htu : t = u := h.eq_of_writes ht (Pc.writes_of_named hu)
    subst htu
    simp [hn] at hu

theorem getExclusiveOwnerTid_of_owner (h : Inv s) (ht : (s.pc t).owner) :
    s.getExclusiveOwnerTid = .tid t :=
  getExclusiveOwnerTid_eq_tid (h.state_of_writes (Pc.writes_of_named (Pc.named_of_owner ht)))
    (h.owner_eq t ht)

/-- A sleeper is one of the contenders that `num_contenders_` counts. -/
theorem numContenders_pos (h : Inv s) (hτ : Fintype.card τ < 2 ^ 31) {u : τ}
    (hu : (s.pc u).sleeping) : 0 < s.numContenders.toInt := by
  have hle := count_le s.pc Pc.contends
  have hpos : 0 < count s.pc Pc.contends := count_pos_iff.2 ⟨u, Pc.contends_of_sleeping hu⟩
  rw [toInt_eq_toNat_of_lt_two_pow_31 (by rw [h.contenders_eq]; omega), h.contenders_eq]
  omega

/-- Without a contender counted, no thread sleeps. -/
theorem not_sleeping (h : Inv s) (hτ : Fintype.card τ < 2 ^ 31)
    (hc : ¬ 0 < s.numContenders.toInt) (u : τ) : (s.pc u).sleeping = false :=
  Bool.eq_false_iff.2 fun hu => hc (h.numContenders_pos hτ hu)

/-- No `LOG(FATAL)` or `DCHECK` of the lock and unlock paths fires. -/
theorem move_ne_aborted (h : Inv s) (hτ : Fintype.card τ < 2 ^ 31) (hm : Move s (s.pc t) q) :
    q ≠ .aborted := by
  generalize hp : s.pc t = p at hm
  cases hm
  case acquiredAbort hne =>
    have ht : (s.pc t).writes := by simp [hp, Pc.writes]
    have hstate := h.state_of_writes ht
    have hzero := getExclusiveOwnerTid_eq_zero hstate (h.owner_eq_none ht (by simp [hp, Pc.named]))
    exact absurd hne (by simp [hstate, hzero])
  case sharedAcquiredAbort u hu =>
    have hreads : (s.pc t).reads := by simp [hp, Pc.reads]
    have hshared := getExclusiveOwnerTid_eq_shared (h.toInt_state_pos hτ hreads)
    simp [hshared] at hu
  case unlockCheckAbort hzero =>
    have htid := h.getExclusiveOwnerTid_of_owner (show (s.pc t).owner by simp [hp, Pc.owner])
    simp [htid] at hzero
  case unlockLoadAbort hne =>
    exact absurd (h.state_of_writes (show (s.pc t).writes by simp [hp, Pc.writes])) hne
  case sharedUnlockCheckAbort u hu =>
    have hreads : (s.pc t).reads := by simp [hp, Pc.reads]
    have hshared := getExclusiveOwnerTid_eq_shared (h.toInt_state_pos hτ hreads)
    simp [hshared] at hu
  case sharedUnlockLoadAbort hn =>
    exact absurd (h.toInt_state_pos hτ (show (s.pc t).reads by simp [hp, Pc.reads])) hn
  all_goals simp

end Inv

theorem count_init {p : Pc → Bool} (hp : p .idle = false) :
    count (init : ReaderWriterMutex τ).pc p = 0 :=
  count_eq_zero.2 fun _ => hp

theorem inv_init : Inv (init : ReaderWriterMutex τ) where
  writers_le_one := by rw [count_init rfl]; omega
  writer_state := by rw [count_init rfl]; omega
  reader_state _ := by rw [count_init rfl]; rfl
  contenders_eq := by rw [count_init rfl]; rfl
  cur_ok _ := trivial
  owner_named _ h := by simp [init] at h
  owner_eq _ h := by simp [init, Pc.owner] at h
  not_aborted _ := by simp [init]
  wakeup := fun ⟨_, h⟩ => by simp [init, Pc.sleeping] at h

end Invariant

/-- The actions that only let go of the mutex: the threads' steps and the unlock calls, with no
lock call and no spurious failure. -/
def Action.isRelease {τ : Type} : Action τ → Bool
  | .step _ | .exclusiveUnlock _ | .sharedUnlock _ => true
  | .exclusiveLock _ | .sharedLock _ | .sharedTryLock _ | .fail _ => false

/-! ## What one action does -/

variable {τ : Type} [DecidableEq τ]

/-- What one action does, by the shared words it writes. -/
inductive Step (s : ReaderWriterMutex τ) : ReaderWriterMutex τ → Prop
  | move (t : τ) (q : Pc) (h : Move s (s.pc t) q) : Step s (s.setPc t q)
  | acquire (t : τ) (m : Mode) (c : BitVec 32) (hpc : s.pc t = .lockCas m c)
      (hc : s.state = c) :
      Step s { s with state := m.newState c, pc := Function.update s.pc t m.acquired }
  | tryAcquire (t : τ) (c : BitVec 32) (hpc : s.pc t = .tryCas c) (hc : s.state = c) :
      Step s { s with state := c + 1, pc := Function.update s.pc t .reading }
  | increment (t : τ) (m : Mode) (c : BitVec 32) (hpc : s.pc t = .lockIncrement m c) :
      Step s { s with numContenders := s.numContenders + 1,
                      pc := Function.update s.pc t (.lockWait m c) }
  | decrement (t : τ) (m : Mode) (hpc : s.pc t = .lockDecrement m) :
      Step s { s with numContenders := s.numContenders - 1,
                      pc := Function.update s.pc t (.lockLoad m) }
  | storeOwner (t : τ) (hpc : s.pc t = .acquired) :
      Step s { s with exclusiveOwner := some t, pc := Function.update s.pc t .writing }
  | clearOwner (t : τ) (hpc : s.pc t = .unlockStoreOwner) :
      Step s { s with exclusiveOwner := none, pc := Function.update s.pc t .unlockCas }
  | release (t : τ) (hpc : s.pc t = .unlockCas) (hc : s.state = -1) :
      Step s { s with state := 0, pc := Function.update s.pc t .unlockLoadContenders }
  | sharedRelease (t : τ) (c : BitVec 32) (hpc : s.pc t = .sharedUnlockCas c)
      (hc : s.state = c) :
      Step s { s with state := c - 1,
                      pc := Function.update s.pc t
                        (if c - 1 = 0 then .unlockLoadContenders else .idle) }
  | wakeAll (t : τ) (hpc : s.pc t = .unlockWake) :
      Step s { s with pc := Function.update (fun u => (s.pc u).woken) t .idle }

variable {s s' : ReaderWriterMutex τ} {t : τ} {p q : Pc}

theorem Step.of_move (hpc : s.pc t = p) (hm : Move s p q) : Step s (s.setPc t q) :=
  .move t q (hpc ▸ hm)

/-- A failed `DCHECK(GetExclusiveOwnerTid() == 0 || … == -1)` saw a tid. -/
theorem exists_tid_of_sharedOwnerTidOk (h : s.sharedOwnerTidOk = false) :
    ∃ u, s.getExclusiveOwnerTid = .tid u := by
  unfold sharedOwnerTidOk at h
  cases htid : s.getExclusiveOwnerTid <;> simp_all

theorem stepThread_step (h : s.stepThread t = some s') : Step s s' := by
  unfold stepThread at h
  cases hpc : s.pc t <;> simp only [hpc, reduceCtorEq] at h
  case lockLoad m =>
    split at h <;> cases h
    · exact .of_move hpc (.lockLoadMay m ‹_›)
    · exact .of_move hpc (.lockLoadWait m (Bool.eq_false_iff.2 ‹_›))
  case lockCas m c =>
    split at h <;> cases h
    · exact .acquire t m c hpc ‹_›
    · exact .of_move hpc (.lockCasFail m c)
  case lockSpin m c i =>
    split at h
    · cases h
      exact .of_move hpc (.lockSpinDone m c i)
    · split at h <;> cases h
      · exact .of_move hpc (.lockSpinAgain m c i)
      · exact .of_move hpc (.lockSpinGiveUp m c i)
  case lockIncrement m c =>
    cases h
    exact .increment t m c hpc
  case lockWait m c =>
    split at h <;> cases h
    · exact .of_move hpc (.lockSleep m c ‹_›)
    · exact .of_move hpc (.lockWaitFail m c)
  case lockDecrement m =>
    cases h
    exact .decrement t m hpc
  case acquired =>
    split at h
    · cases h
      exact .of_move hpc (.acquiredAbort (.inl ‹_›))
    · split at h <;> cases h
      · exact .of_move hpc (.acquiredAbort (.inr ‹_›))
      · exact .storeOwner t hpc
  case sharedAcquired =>
    split at h <;> cases h
    · exact .of_move hpc .sharedAcquiredOk
    · obtain ⟨u, hu⟩ := exists_tid_of_sharedOwnerTidOk (Bool.eq_false_iff.2 ‹_›)
      exact .of_move hpc (.sharedAcquiredAbort u hu)
  case tryLoad =>
    split at h <;> cases h
    · exact .of_move hpc (.tryLoadFree ‹_›)
    · exact .of_move hpc .tryLoadHeld
  case tryCas c =>
    split at h <;> cases h
    · exact .tryAcquire t c hpc ‹_›
    · exact .of_move hpc (.tryCasFail c)
  case unlockCheck =>
    split at h <;> cases h
    · exact .of_move hpc .unlockCheckOk
    · exact .of_move hpc (.unlockCheckAbort (not_not.1 ‹_›))
  case unlockLoad =>
    split at h <;> cases h
    · exact .of_move hpc .unlockLoadHeld
    · exact .of_move hpc (.unlockLoadAbort ‹_›)
  case unlockStoreOwner =>
    cases h
    exact .clearOwner t hpc
  case unlockCas =>
    split at h <;> cases h
    · exact .release t hpc ‹_›
    · exact .of_move hpc .unlockCasFail
  case sharedUnlockCheck =>
    split at h <;> cases h
    · exact .of_move hpc .sharedUnlockCheckOk
    · obtain ⟨u, hu⟩ := exists_tid_of_sharedOwnerTidOk (Bool.eq_false_iff.2 ‹_›)
      exact .of_move hpc (.sharedUnlockCheckAbort u hu)
  case sharedUnlockLoad =>
    split at h <;> cases h
    · exact .of_move hpc (.sharedUnlockLoadHeld ‹_›)
    · exact .of_move hpc (.sharedUnlockLoadAbort ‹_›)
  case sharedUnlockCas c =>
    split at h <;> cases h
    · exact .sharedRelease t c hpc ‹_›
    · exact .of_move hpc (.sharedUnlockCasFail c)
  case unlockLoadContenders =>
    split at h <;> cases h
    · exact .of_move hpc .loadContendersWake
    · exact .of_move hpc (.loadContendersNone ‹_›)
  case unlockWake =>
    cases h
    exact .wakeAll t hpc

theorem failThread_step (h : s.failThread t = some s') : Step s s' := by
  unfold failThread at h
  cases hpc : s.pc t <;> simp only [hpc, reduceCtorEq, Option.some.injEq] at h <;> subst h
  case lockCas m c => exact .of_move hpc (.lockCasFail m c)
  case tryCas c => exact .of_move hpc (.tryCasFail c)
  case unlockCas => exact .of_move hpc .unlockCasFail
  case sharedUnlockCas c => exact .of_move hpc (.sharedUnlockCasFail c)
  case lockSpin m c i => exact .of_move hpc (.lockSpinGiveUp m c i)
  case lockSleeping m c => exact .of_move hpc (.lockWoken m c)

/-- Every action taken is a `Step`. -/
theorem next_step {a : Action τ} (h : next s a = some s') : Step s s' := by
  cases a with
  | step t => exact stepThread_step h
  | fail t => exact failThread_step h
  | exclusiveLock t | exclusiveUnlock t | sharedLock t | sharedTryLock t | sharedUnlock t =>
    simp only [next, Option.ite_none_right_eq_some, Option.some.injEq] at h
    obtain ⟨hpc, rfl⟩ := h
    first
    | exact .of_move hpc (.lock _)
    | exact .of_move hpc .sharedTryLock
    | exact .of_move hpc .exclusiveUnlock
    | exact .of_move hpc .sharedUnlock

/-! ## The steps of a release -/

/-- `s'` follows from `s` by steps and unlock calls alone. -/
def Releases (s s' : ReaderWriterMutex τ) : Prop :=
  Reaches next (fun a : Action τ => a.isRelease) s s'

/-- Where the writer's release ends: `state_` at `0`, no owner, and the writer at its load of
`num_contenders_`. -/
def writerReleased (s : ReaderWriterMutex τ) (t : τ) : ReaderWriterMutex τ :=
  { s with state := 0, exclusiveOwner := none,
           pc := Function.update s.pc t .unlockLoadContenders }

/-- Where a reader's release ends: one reader fewer in `state_`, and the reader idle, or at its
load of `num_contenders_` if it was the last. -/
def readerReleased (s : ReaderWriterMutex τ) (t : τ) : ReaderWriterMutex τ :=
  { s with state := s.state - 1,
           pc := Function.update s.pc t
             (if s.state - 1 = 0 then .unlockLoadContenders else .idle) }

/-- Where the wake-up ends: every sleeper on to its `fetch_sub(1)`, and the waker idle. -/
def wokenAll (s : ReaderWriterMutex τ) (t : τ) : ReaderWriterMutex τ :=
  { s with pc := Function.update (fun u => (s.pc u).woken) t .idle }

-- The thread's own moves before the end of its release do not change where it ends.

@[simp]
theorem writerReleased_update (o : Option τ) :
    ({ s with exclusiveOwner := o, pc := Function.update s.pc t q } :
      ReaderWriterMutex τ).writerReleased t = s.writerReleased t := by
  simp [writerReleased]

@[simp]
theorem writerReleased_setPc : (s.setPc t q).writerReleased t = s.writerReleased t := by
  simp [writerReleased, setPc]

@[simp]
theorem readerReleased_setPc : (s.setPc t q).readerReleased t = s.readerReleased t := by
  unfold readerReleased setPc
  rw [Function.update_idem]

@[simp]
theorem wokenAll_setPc : (s.setPc t q).wokenAll t = s.wokenAll t := by
  simp only [wokenAll, setPc, ReaderWriterMutex.mk.injEq, true_and]
  funext u
  by_cases hut : u = t <;> simp [hut]

theorem sleeping_wokenAll (u : τ) : ((s.wokenAll t).pc u).sleeping = false := by
  by_cases hut : u = t
  · simp [wokenAll, hut, Pc.sleeping]
  · simp [wokenAll, hut, Pc.sleeping_woken]

theorem Releases.head {s₁ : ReaderWriterMutex τ} (a : Action τ) (ha : a.isRelease)
    (h : next s a = some s₁) (hr : Releases s₁ s') : Releases s s' :=
  Reaches.head ha h hr

theorem Releases.single (a : Action τ) (ha : a.isRelease) (h : next s a = some s') :
    Releases s s' :=
  Reaches.single ha h

theorem Releases.trans {s₁ : ReaderWriterMutex τ} (h₁ : Releases s s₁)
    (h₂ : Releases s₁ s') : Releases s s' :=
  Reaches.trans h₁ h₂

/-! ### The writer lets go -/

-- Each lemma takes one step of the writer, to a state that the lemma before it releases.

theorem releases_unlockCas (s : ReaderWriterMutex τ) (t : τ) (hpc : s.pc t = .unlockCas)
    (hs : s.state = -1) (ho : s.exclusiveOwner = none) : Releases s (s.writerReleased t) := by
  refine .single (.step t) rfl ?_
  rcases s with ⟨state, owner, n, pc⟩
  simp only at hpc hs ho
  subst hs ho
  simp [next, stepThread, hpc, writerReleased]

theorem releases_unlockStoreOwner (s : ReaderWriterMutex τ) (t : τ)
    (hpc : s.pc t = .unlockStoreOwner) (hs : s.state = -1) : Releases s (s.writerReleased t) := by
  have h₁ := releases_unlockCas
    { s with exclusiveOwner := none, pc := Function.update s.pc t .unlockCas } t (by simp) hs rfl
  rw [writerReleased_update] at h₁
  exact .head (.step t) rfl (by simp [next, stepThread, hpc]) h₁

theorem releases_unlockLoad (s : ReaderWriterMutex τ) (t : τ) (hpc : s.pc t = .unlockLoad)
    (hs : s.state = -1) : Releases s (s.writerReleased t) := by
  have h₁ := releases_unlockStoreOwner (s.setPc t .unlockStoreOwner) t (by simp) hs
  rw [writerReleased_setPc] at h₁
  exact .head (.step t) rfl (by simp [next, stepThread, hpc, hs]) h₁

theorem releases_unlockCheck (s : ReaderWriterMutex τ) (t : τ) (hpc : s.pc t = .unlockCheck)
    (hs : s.state = -1) (ho : s.exclusiveOwner = some t) : Releases s (s.writerReleased t) := by
  have h₁ := releases_unlockLoad (s.setPc t .unlockLoad) t (by simp) hs
  rw [writerReleased_setPc] at h₁
  exact .head (.step t) rfl
    (by simp [next, stepThread, hpc, getExclusiveOwnerTid_eq_tid hs ho]) h₁

theorem releases_writing (s : ReaderWriterMutex τ) (t : τ) (hpc : s.pc t = .writing)
    (hs : s.state = -1) (ho : s.exclusiveOwner = some t) : Releases s (s.writerReleased t) := by
  have h₁ := releases_unlockCheck (s.setPc t .unlockCheck) t (by simp) hs ho
  rw [writerReleased_setPc] at h₁
  exact .head (.exclusiveUnlock t) rfl (by simp [next, hpc]) h₁

theorem releases_acquired (s : ReaderWriterMutex τ) (t : τ) (hpc : s.pc t = .acquired)
    (hs : s.state = -1) (ho : s.exclusiveOwner = none) : Releases s (s.writerReleased t) := by
  have h₁ := releases_writing
    { s with exclusiveOwner := some t, pc := Function.update s.pc t .writing } t (by simp) hs rfl
  rw [writerReleased_update] at h₁
  exact .head (.step t) rfl
    (by simp [next, stepThread, hpc, hs, getExclusiveOwnerTid_eq_zero hs ho]) h₁

/-! ### A reader lets go -/

theorem releases_sharedUnlockLoad (s : ReaderWriterMutex τ) (t : τ)
    (hpc : s.pc t = .sharedUnlockLoad) (hpos : 0 < s.state.toInt) :
    Releases s (s.readerReleased t) := by
  -- its compare-and-set follows the load, and no other thread moves in between
  have h₁ : Releases (s.setPc t (.sharedUnlockCas s.state)) (s.readerReleased t) :=
    .single (.step t) rfl (by simp [next, stepThread, readerReleased])
  exact .head (.step t) rfl (by simp [next, stepThread, hpc, hpos]) h₁

theorem releases_sharedUnlockCas {c : BitVec 32} (s : ReaderWriterMutex τ) (t : τ)
    (hpc : s.pc t = .sharedUnlockCas c) (hpos : 0 < s.state.toInt) :
    Releases s (s.readerReleased t) := by
  by_cases hc : s.state = c
  · -- the compare-and-set succeeds
    subst hc
    exact .single (.step t) rfl (by simp [next, stepThread, hpc, readerReleased])
  · -- it fails, and the reader loads `state_` again
    have h₁ := releases_sharedUnlockLoad (s.setPc t .sharedUnlockLoad) t (by simp) hpos
    rw [readerReleased_setPc] at h₁
    exact .head (.step t) rfl (by simp [next, stepThread, hpc, hc]) h₁

theorem releases_sharedUnlockCheck (s : ReaderWriterMutex τ) (t : τ)
    (hpc : s.pc t = .sharedUnlockCheck) (hpos : 0 < s.state.toInt) :
    Releases s (s.readerReleased t) := by
  have h₁ := releases_sharedUnlockLoad (s.setPc t .sharedUnlockLoad) t (by simp) hpos
  rw [readerReleased_setPc] at h₁
  exact .head (.step t) rfl
    (by simp [next, stepThread, hpc, sharedOwnerTidOk, getExclusiveOwnerTid_eq_shared hpos]) h₁

theorem releases_reading (s : ReaderWriterMutex τ) (t : τ) (hpc : s.pc t = .reading)
    (hpos : 0 < s.state.toInt) : Releases s (s.readerReleased t) := by
  have h₁ := releases_sharedUnlockCheck (s.setPc t .sharedUnlockCheck) t (by simp) hpos
  rw [readerReleased_setPc] at h₁
  exact .head (.sharedUnlock t) rfl (by simp [next, hpc]) h₁

theorem releases_sharedAcquired (s : ReaderWriterMutex τ) (t : τ) (hpc : s.pc t = .sharedAcquired)
    (hpos : 0 < s.state.toInt) : Releases s (s.readerReleased t) := by
  have h₁ := releases_reading (s.setPc t .reading) t (by simp) hpos
  rw [readerReleased_setPc] at h₁
  exact .head (.step t) rfl
    (by simp [next, stepThread, hpc, sharedOwnerTidOk, getExclusiveOwnerTid_eq_shared hpos]) h₁

/-! ### The unlock that left `state_` at `0` wakes every sleeper -/

theorem releases_unlockWake (s : ReaderWriterMutex τ) (t : τ) (hpc : s.pc t = .unlockWake) :
    Releases s (s.wokenAll t) :=
  .single (.step t) rfl (by simp [next, stepThread, hpc, wokenAll])

theorem releases_waking (ht : (s.pc t).waking) (hn : 0 < s.numContenders.toInt) :
    Releases s (s.wokenAll t) := by
  cases hpc : s.pc t <;> simp only [hpc, Pc.waking, reduceCtorEq] at ht
  case unlockLoadContenders =>
    have h₁ := releases_unlockWake (s.setPc t .unlockWake) t (by simp)
    rw [wokenAll_setPc] at h₁
    exact .head (.step t) rfl (by simp [next, stepThread, hpc, hn]) h₁
  case unlockWake => exact releases_unlockWake s t hpc

/-! ## The invariant over every run -/

variable [Fintype τ]

namespace Inv

variable {c : BitVec 32}

/-! ### The frame of one thread's move -/

theorem cur_ok_update (h : Inv s) (hq : q.CurOk) : ∀ u, (Function.update s.pc t q u).CurOk :=
  (Function.forall_update_iff s.pc fun _ p => p.CurOk).2 ⟨hq, fun u _ => h.cur_ok u⟩

theorem not_aborted_update (h : Inv s) (hq : q ≠ .aborted) :
    ∀ u, Function.update s.pc t q u ≠ .aborted :=
  (Function.forall_update_iff s.pc fun _ p => p ≠ .aborted).2 ⟨hq, fun u _ => h.not_aborted u⟩

theorem owner_named_update (h : Inv s) (hq : (s.pc t).named → q.named) :
    ∀ u, s.exclusiveOwner = some u → (Function.update s.pc t q u).named := by
  intro u hu
  by_cases hut : u = t
  · subst hut
    simpa using hq (h.owner_named u hu)
  · simpa [hut] using h.owner_named u hu

theorem owner_eq_update (h : Inv s) (hq : q.owner → (s.pc t).owner) :
    ∀ u, (Function.update s.pc t q u).owner → s.exclusiveOwner = some u := by
  intro u hu
  by_cases hut : u = t
  · subst hut
    exact h.owner_eq u (hq (by simpa using hu))
  · exact h.owner_eq u (by simpa [hut] using hu)

/-- A move that leaves `state_` keeps the sleepers' wakers: a thread that goes to sleep does so
on a `state_` that is not `0`, and a waker goes on waking unless no thread sleeps. -/
theorem wakeup_update (h : Inv s) (hq : q.sleeping → s.state ≠ 0)
    (hw : (s.pc t).waking → q.waking ∨ ∀ u, (s.pc u).sleeping = false) :
    NoLostWakeup (Function.update s.pc t q) s.state := by
  rintro ⟨u, hu⟩
  by_cases hut : u = t
  · subst hut
    exact .inl (hq (by simpa using hu))
  · have hu' : (s.pc u).sleeping := by simpa [hut] using hu
    rcases h.wakeup ⟨u, hu'⟩ with hs | ⟨w, hw'⟩
    · exact .inl hs
    · by_cases hwt : w = t
      · subst hwt
        rcases hw hw' with hq' | hnone
        · exact .inr ⟨w, by simpa using hq'⟩
        · simp [hnone u] at hu'
      · exact .inr ⟨w, by simpa [hwt] using hw'⟩

/-! ### Each step keeps the invariant -/

theorem move (h : Inv s) (hτ : Fintype.card τ < 2 ^ 31) (hm : Move s (s.pc t) q) :
    Inv (s.setPc t q) := by
  have hq := h.move_ne_aborted hτ hm
  have hw : count (Function.update s.pc t q) Pc.writes = count s.pc Pc.writes :=
    count_update_of_eq (hm.writes_eq hq)
  have hr : count (Function.update s.pc t q) Pc.reads = count s.pc Pc.reads :=
    count_update_of_eq (hm.reads_eq hq)
  have hc : count (Function.update s.pc t q) Pc.contends = count s.pc Pc.contends :=
    count_update_of_eq hm.contends_eq
  constructor
  case writers_le_one => simpa [hw] using h.writers_le_one
  case writer_state => simpa [hw, hr] using h.writer_state
  case reader_state => simpa [hw, hr] using h.reader_state
  case contenders_eq => simpa [hc] using h.contenders_eq
  case cur_ok => simpa using h.cur_ok_update (hm.curOk (h.cur_ok t))
  case owner_named => simpa using h.owner_named_update fun hp => hm.named hp hq
  case owner_eq => simpa using h.owner_eq_update hm.owner
  case not_aborted => simpa using h.not_aborted_update hq
  case wakeup =>
    simpa using h.wakeup_update (hm.state_ne_zero_of_sleeping (h.cur_ok t))
      fun hp => (hm.of_waking hp).imp_right (h.not_sleeping hτ)

/-- `CompareAndSetWeakAcquire(0, -1)` of `ExclusiveLock` succeeds: `state_` was `0`, so no
thread wrote or read. -/
theorem addWriter (h : Inv s) (hpc : s.pc t = .lockCas .exclusive c) (hc : s.state = c) :
    Inv { s with state := -1, pc := Function.update s.pc t .acquired } := by
  have hzero : c = 0 := by simpa [hpc, Pc.CurOk, Mode.mayAcquire] using h.cur_ok t
  have hw0 : count s.pc Pc.writes = 0 := by
    by_contra hne
    have := (h.writer_state (Nat.pos_of_ne_zero hne)).1
    exact neg_one_ne_zero (this ▸ hc.trans hzero)
  have hr0 : count s.pc Pc.reads = 0 := by
    rw [← h.reader_state hw0, hc, hzero]
    rfl
  have hnone := h.owner_eq_none_of_free hw0
  have hw : count (Function.update s.pc t .acquired) Pc.writes = count s.pc Pc.writes + 1 :=
    count_update_enter (by simp [hpc, Pc.writes]) rfl
  have hr : count (Function.update s.pc t .acquired) Pc.reads = count s.pc Pc.reads :=
    count_update_of_eq (by simp [hpc, Pc.reads])
  have hcont : count (Function.update s.pc t .acquired) Pc.contends = count s.pc Pc.contends :=
    count_update_of_eq (by simp [hpc, Pc.contends])
  constructor
  case writers_le_one => simp only; omega
  case writer_state => exact fun _ => ⟨rfl, by simp only; omega⟩
  case reader_state => simp only; omega
  case contenders_eq => simpa [hcont] using h.contenders_eq
  case cur_ok => exact h.cur_ok_update trivial
  case owner_named => simp [hnone]
  case owner_eq => exact h.owner_eq_update (by simp [Pc.owner])
  case not_aborted => exact h.not_aborted_update (by simp)
  case wakeup => exact fun _ => .inl neg_one_ne_zero

/-- A compare-and-set from `cur_state >= 0` to `cur_state + 1`, of `SharedLock` or of
`SharedTryLock`, succeeds: no thread wrote, and the thread is one more reader. -/
theorem addReader (h : Inv s) (hpc : s.pc t = .lockCas .shared c ∨ s.pc t = .tryCas c)
    (hq : q = .sharedAcquired ∨ q = .reading) (hc : s.state = c) :
    Inv { s with state := c + 1, pc := Function.update s.pc t q } := by
  have hnn : 0 ≤ c.toInt := by
    rcases hpc with hpc | hpc <;> simpa [hpc, Pc.CurOk, Mode.mayAcquire] using h.cur_ok t
  have hw0 : count s.pc Pc.writes = 0 := by
    by_contra hne
    have hneg := (h.writer_state (Nat.pos_of_ne_zero hne)).1
    rw [hc] at hneg
    rw [hneg, toInt_neg_one] at hnn
    omega
  have hnone := h.owner_eq_none_of_free hw0
  have hr : count (Function.update s.pc t q) Pc.reads = count s.pc Pc.reads + 1 :=
    count_update_enter (by rcases hpc with hpc | hpc <;> simp [hpc, Pc.reads])
      (by rcases hq with rfl | rfl <;> rfl)
  have hw : count (Function.update s.pc t q) Pc.writes = count s.pc Pc.writes :=
    count_update_of_eq
      (by rcases hpc with hpc | hpc <;> rcases hq with rfl | rfl <;> simp [hpc, Pc.writes])
  have hcont : count (Function.update s.pc t q) Pc.contends = count s.pc Pc.contends :=
    count_update_of_eq
      (by rcases hpc with hpc | hpc <;> rcases hq with rfl | rfl <;> simp [hpc, Pc.contends])
  constructor
  case writers_le_one => simp only; omega
  case writer_state => simp only; omega
  case reader_state =>
    intro _
    simp only
    rw [toNat_add_one_of_nonneg hnn, ← hc, h.reader_state hw0, hr]
  case contenders_eq => simpa [hcont] using h.contenders_eq
  case cur_ok => exact h.cur_ok_update (by rcases hq with rfl | rfl <;> trivial)
  case owner_named => simp [hnone]
  case owner_eq => exact h.owner_eq_update (by rcases hq with rfl | rfl <;> simp [Pc.owner])
  case not_aborted => exact h.not_aborted_update (by rcases hq with rfl | rfl <;> simp)
  case wakeup => exact fun _ => .inl (add_one_ne_zero_of_nonneg hnn)

/-- `num_contenders_.fetch_add(1)`. -/
theorem increment {m : Mode} (h : Inv s) (hτ : Fintype.card τ < 2 ^ 31)
    (hpc : s.pc t = .lockIncrement m c) :
    Inv { s with numContenders := s.numContenders + 1,
                 pc := Function.update s.pc t (.lockWait m c) } := by
  have hw : count (Function.update s.pc t (.lockWait m c)) Pc.writes = count s.pc Pc.writes :=
    count_update_of_eq (by simp [hpc, Pc.writes])
  have hr : count (Function.update s.pc t (.lockWait m c)) Pc.reads = count s.pc Pc.reads :=
    count_update_of_eq (by simp [hpc, Pc.reads])
  have hcont : count (Function.update s.pc t (.lockWait m c)) Pc.contends =
      count s.pc Pc.contends + 1 := count_update_enter (by simp [hpc, Pc.contends]) rfl
  have hle := count_le s.pc Pc.contends
  constructor
  case writers_le_one => simpa [hw] using h.writers_le_one
  case writer_state => simpa [hw, hr] using h.writer_state
  case reader_state => simpa [hw, hr] using h.reader_state
  case contenders_eq =>
    simp only
    rw [toNat_add_one_of_nonneg (BitVec.toInt_pos_iff.2 (by rw [h.contenders_eq]; omega)),
      h.contenders_eq, hcont]
  case cur_ok =>
    refine h.cur_ok_update ?_
    simpa [hpc, Pc.CurOk] using h.cur_ok t
  case owner_named => exact h.owner_named_update (by simp [hpc, Pc.named])
  case owner_eq => exact h.owner_eq_update (by simp [Pc.owner])
  case not_aborted => exact h.not_aborted_update (by simp)
  case wakeup => exact h.wakeup_update (by simp [Pc.sleeping]) (by simp [hpc, Pc.waking])

/-- `num_contenders_.fetch_sub(1)`: the thread was one of the contenders it counts. -/
theorem decrement {m : Mode} (h : Inv s) (hpc : s.pc t = .lockDecrement m) :
    Inv { s with numContenders := s.numContenders - 1,
                 pc := Function.update s.pc t (.lockLoad m) } := by
  have hw : count (Function.update s.pc t (.lockLoad m)) Pc.writes = count s.pc Pc.writes :=
    count_update_of_eq (by simp [hpc, Pc.writes])
  have hr : count (Function.update s.pc t (.lockLoad m)) Pc.reads = count s.pc Pc.reads :=
    count_update_of_eq (by simp [hpc, Pc.reads])
  have hcont : count (Function.update s.pc t (.lockLoad m)) Pc.contends + 1 =
      count s.pc Pc.contends := count_update_leave (by simp [hpc, Pc.contends]) rfl
  constructor
  case writers_le_one => simpa [hw] using h.writers_le_one
  case writer_state => simpa [hw, hr] using h.writer_state
  case reader_state => simpa [hw, hr] using h.reader_state
  case contenders_eq =>
    simp only
    rw [toNat_sub_one_of_pos (by rw [h.contenders_eq]; omega), h.contenders_eq]
    omega
  case cur_ok => exact h.cur_ok_update trivial
  case owner_named => exact h.owner_named_update (by simp [hpc, Pc.named])
  case owner_eq => exact h.owner_eq_update (by simp [Pc.owner])
  case not_aborted => exact h.not_aborted_update (by simp)
  case wakeup => exact h.wakeup_update (by simp [Pc.sleeping]) (by simp [hpc, Pc.waking])

/-- `exclusive_owner_.store(SafeGetTid(self))` of `ExclusiveLock`. -/
theorem storeOwner (h : Inv s) (hpc : s.pc t = .acquired) :
    Inv { s with exclusiveOwner := some t, pc := Function.update s.pc t .writing } := by
  have ht : (s.pc t).writes := by simp [hpc, Pc.writes]
  have hw : count (Function.update s.pc t .writing) Pc.writes = count s.pc Pc.writes :=
    count_update_of_eq (by simp [hpc, Pc.writes])
  have hr : count (Function.update s.pc t .writing) Pc.reads = count s.pc Pc.reads :=
    count_update_of_eq (by simp [hpc, Pc.reads])
  have hcont : count (Function.update s.pc t .writing) Pc.contends = count s.pc Pc.contends :=
    count_update_of_eq (by simp [hpc, Pc.contends])
  constructor
  case writers_le_one => simpa [hw] using h.writers_le_one
  case writer_state => simpa [hw, hr] using h.writer_state
  case reader_state => simpa [hw, hr] using h.reader_state
  case contenders_eq => simpa [hcont] using h.contenders_eq
  case cur_ok => exact h.cur_ok_update trivial
  case owner_named =>
    rintro u ⟨⟩
    simp [Pc.named]
  case owner_eq =>
    intro u hu
    by_cases hut : u = t
    · simp [hut]
    · -- another thread that `exclusive_owner_` names would be a second writer
      have hu' : (s.pc u).owner := by simpa [hut] using hu
      exact absurd (h.eq_of_writes ht (Pc.writes_of_named (Pc.named_of_owner hu'))) (Ne.symm hut)
  case not_aborted => exact h.not_aborted_update (by simp)
  case wakeup => exact h.wakeup_update (by simp [Pc.sleeping]) (by simp [hpc, Pc.waking])

/-- `exclusive_owner_.store(0)` of `ExclusiveUnlock`. -/
theorem clearOwner (h : Inv s) (hpc : s.pc t = .unlockStoreOwner) :
    Inv { s with exclusiveOwner := none, pc := Function.update s.pc t .unlockCas } := by
  have ht : (s.pc t).writes := by simp [hpc, Pc.writes]
  have hw : count (Function.update s.pc t .unlockCas) Pc.writes = count s.pc Pc.writes :=
    count_update_of_eq (by simp [hpc, Pc.writes])
  have hr : count (Function.update s.pc t .unlockCas) Pc.reads = count s.pc Pc.reads :=
    count_update_of_eq (by simp [hpc, Pc.reads])
  have hcont : count (Function.update s.pc t .unlockCas) Pc.contends = count s.pc Pc.contends :=
    count_update_of_eq (by simp [hpc, Pc.contends])
  constructor
  case writers_le_one => simpa [hw] using h.writers_le_one
  case writer_state => simpa [hw, hr] using h.writer_state
  case reader_state => simpa [hw, hr] using h.reader_state
  case contenders_eq => simpa [hcont] using h.contenders_eq
  case cur_ok => exact h.cur_ok_update trivial
  case owner_named => simp
  case owner_eq =>
    intro u hu
    by_cases hut : u = t
    · simp [hut, Pc.owner] at hu
    · -- a thread that `exclusive_owner_` names other than the unlocking writer would be a second
      have hu' : (s.pc u).owner := by simpa [hut] using hu
      exact absurd (h.eq_of_writes ht (Pc.writes_of_named (Pc.named_of_owner hu'))) (Ne.symm hut)
  case not_aborted => exact h.not_aborted_update (by simp)
  case wakeup => exact h.wakeup_update (by simp [Pc.sleeping]) (by simp [hpc, Pc.waking])

/-- `CompareAndSetWeakSequentiallyConsistent(-1, 0)` of `ExclusiveUnlock` succeeds. -/
theorem release (h : Inv s) (hpc : s.pc t = .unlockCas) :
    Inv { s with state := 0, pc := Function.update s.pc t .unlockLoadContenders } := by
  have ht : (s.pc t).writes := by simp [hpc, Pc.writes]
  have hr0 := (h.writer_state (count_pos_iff.2 ⟨t, ht⟩)).2
  have hw : count (Function.update s.pc t .unlockLoadContenders) Pc.writes + 1 =
      count s.pc Pc.writes := count_update_leave ht rfl
  have hr : count (Function.update s.pc t .unlockLoadContenders) Pc.reads =
      count s.pc Pc.reads := count_update_of_eq (by simp [hpc, Pc.reads])
  have hcont : count (Function.update s.pc t .unlockLoadContenders) Pc.contends =
      count s.pc Pc.contends := count_update_of_eq (by simp [hpc, Pc.contends])
  have hone := h.writers_le_one
  constructor
  case writers_le_one => simp only; omega
  case writer_state => simp only; omega
  case reader_state => exact fun _ => by simp only [hr, hr0]; rfl
  case contenders_eq => simpa [hcont] using h.contenders_eq
  case cur_ok => exact h.cur_ok_update trivial
  case owner_named => simp [h.owner_eq_none ht (by simp [hpc, Pc.named])]
  case owner_eq => exact h.owner_eq_update (by simp [Pc.owner])
  case not_aborted => exact h.not_aborted_update (by simp)
  case wakeup => exact fun _ => .inr ⟨t, by simp [Pc.waking]⟩

/-- `CompareAndSetWeakSequentiallyConsistent(cur_state, cur_state - 1)` of `SharedUnlock`
succeeds: the thread is one reader fewer, and the last one goes on to wake the sleepers. -/
theorem removeReader (h : Inv s) (hpc : s.pc t = .sharedUnlockCas c) (hc : s.state = c) :
    Inv { s with state := c - 1,
                 pc := Function.update s.pc t
                   (if c - 1 = 0 then .unlockLoadContenders else .idle) } := by
  set q : Pc := if c - 1 = 0 then .unlockLoadContenders else .idle with hq
  have ht : (s.pc t).reads := by simp [hpc, Pc.reads]
  have hpos : 0 < c.toInt := by simpa [hpc, Pc.CurOk] using h.cur_ok t
  have hw0 := h.count_writes_of_reads ht
  have hnone := h.owner_eq_none_of_free hw0
  have hr : count (Function.update s.pc t q) Pc.reads + 1 = count s.pc Pc.reads :=
    count_update_leave ht (by rw [hq]; split <;> rfl)
  have hw : count (Function.update s.pc t q) Pc.writes = count s.pc Pc.writes :=
    count_update_of_eq (by rw [hq, hpc]; split <;> rfl)
  have hcont : count (Function.update s.pc t q) Pc.contends = count s.pc Pc.contends :=
    count_update_of_eq (by rw [hq, hpc]; split <;> rfl)
  constructor
  case writers_le_one => simpa [hw] using h.writers_le_one
  case writer_state => simp only; omega
  case reader_state =>
    intro _
    simp only
    rw [toNat_sub_one_of_pos (toNat_pos_of_toInt_pos hpos), ← hc, h.reader_state hw0]
    omega
  case contenders_eq => simpa [hcont] using h.contenders_eq
  case cur_ok => exact h.cur_ok_update (by rw [hq]; split <;> trivial)
  case owner_named => simp [hnone]
  case owner_eq => exact h.owner_eq_update (by rw [hq]; split <;> simp [Pc.owner])
  case not_aborted => exact h.not_aborted_update (by rw [hq]; split <;> simp)
  case wakeup =>
    intro _
    by_cases hz : c - 1 = 0
    · exact .inr ⟨t, show (Function.update s.pc t q t).waking by
        rw [Function.update_self, hq, if_pos hz]
        rfl⟩
    · exact .inl hz

/-- `futex(FUTEX_WAKE, kWakeAll)`: every sleeper goes on to its `fetch_sub(1)`. -/
theorem wakeAll (h : Inv s) (hpc : s.pc t = .unlockWake) :
    Inv { s with pc := Function.update (fun u => (s.pc u).woken) t .idle } := by
  -- the wake-up moves no thread across the counted program counters
  have hcount : ∀ p : Pc → Bool, (∀ m c, p (.lockDecrement m) = p (.lockSleeping m c)) →
      p .unlockWake = p .idle →
      count (Function.update (fun u => (s.pc u).woken) t .idle) p = count s.pc p := by
    intro p hp hidle
    rw [count_update_of_eq (by simp [hpc, Pc.woken, hidle]), count_comp (Pc.apply_woken p hp)]
  have hw := hcount Pc.writes (fun _ _ => rfl) rfl
  have hr := hcount Pc.reads (fun _ _ => rfl) rfl
  have hcont := hcount Pc.contends (fun _ _ => rfl) rfl
  have hwoken : ∀ (f : Pc → Prop), (∀ m c, f (.lockDecrement m) = f (.lockSleeping m c)) →
      f .idle → (∀ u, f (s.pc u)) →
      ∀ u, f (Function.update (fun u => (s.pc u).woken) t .idle u) :=
    fun f hf hidle hall => (Function.forall_update_iff _ fun _ p => f p).2
      ⟨hidle, fun u _ => (Pc.apply_woken f hf (s.pc u)).symm ▸ hall u⟩
  constructor
  case writers_le_one => simpa [hw] using h.writers_le_one
  case writer_state => simpa [hw, hr] using h.writer_state
  case reader_state => simpa [hw, hr] using h.reader_state
  case contenders_eq => simpa [hcont] using h.contenders_eq
  case cur_ok => exact hwoken _ (fun _ _ => rfl) trivial h.cur_ok
  case owner_named =>
    intro u hu
    have hut : u ≠ t := by
      rintro rfl
      simpa [hpc, Pc.named] using h.owner_named u hu
    simpa [hut, Pc.apply_woken Pc.named (fun _ _ => rfl)] using h.owner_named u hu
  case owner_eq =>
    intro u hu
    by_cases hut : u = t
    · simp [hut, Pc.owner] at hu
    · exact h.owner_eq u (by simpa [hut, Pc.apply_woken Pc.owner (fun _ _ => rfl)] using hu)
  case not_aborted => exact hwoken (· ≠ .aborted) (fun _ _ => by simp) (by simp) h.not_aborted
  case wakeup =>
    rintro ⟨u, hu⟩
    by_cases hut : u = t
    · simp [hut, Pc.sleeping] at hu
    · simp [hut, Pc.sleeping_woken] at hu

/-- Every step keeps the invariant. -/
theorem step (h : Inv s) (hτ : Fintype.card τ < 2 ^ 31) (hs : Step s s') : Inv s' := by
  cases hs with
  | move t q hm => exact h.move hτ hm
  | acquire t m c hpc hc =>
    cases m
    case shared => exact h.addReader (.inl hpc) (.inl rfl) hc
    case exclusive => exact h.addWriter hpc hc
  | tryAcquire t c hpc hc => exact h.addReader (.inr hpc) (.inr rfl) hc
  | increment t m c hpc => exact h.increment hτ hpc
  | decrement t m hpc => exact h.decrement hpc
  | storeOwner t hpc => exact h.storeOwner hpc
  | clearOwner t hpc => exact h.clearOwner hpc
  | release t hpc hc => exact h.release hpc
  | sharedRelease t c hpc hc => exact h.removeReader hpc hc
  | wakeAll t hpc => exact h.wakeAll hpc

end Inv

/-- The invariant holds after every run from `ReaderWriterMutex()`. -/
theorem run_inv (hτ : Fintype.card τ < 2 ^ 31) {actions : List (Action τ)}
    (hrun : run next init actions = some s) : Inv s :=
  run_invariant (fun _ _ _ hs ha => hs.step hτ (next_step ha)) inv_init hrun

/-! ## Every sleeper can be woken -/

namespace Inv

theorem of_releases (h : Inv s) (hτ : Fintype.card τ < 2 ^ 31) (hr : Releases s s') : Inv s' :=
  Reaches.invariant (fun _ _ _ hs ha => hs.step hτ (next_step ha)) h hr

/-- The writer lets go, from wherever it is in its code. -/
theorem releases_writer (h : Inv s) (ht : (s.pc t).writes) : Releases s (s.writerReleased t) := by
  have hs := h.state_of_writes ht
  have hnone : (s.pc t).named = false → s.exclusiveOwner = none := h.owner_eq_none ht
  cases hpc : s.pc t <;> simp only [hpc, Pc.writes, reduceCtorEq] at ht
  case acquired => exact releases_acquired s t hpc hs (hnone (by simp [hpc, Pc.named]))
  case writing => exact releases_writing s t hpc hs (h.owner_eq t (by simp [hpc, Pc.owner]))
  case unlockCheck =>
    exact releases_unlockCheck s t hpc hs (h.owner_eq t (by simp [hpc, Pc.owner]))
  case unlockLoad => exact releases_unlockLoad s t hpc hs
  case unlockStoreOwner => exact releases_unlockStoreOwner s t hpc hs
  case unlockCas => exact releases_unlockCas s t hpc hs (hnone (by simp [hpc, Pc.named]))

/-- A reader lets go, from wherever it is in its code. -/
theorem releases_reader (h : Inv s) (hτ : Fintype.card τ < 2 ^ 31) (ht : (s.pc t).reads) :
    Releases s (s.readerReleased t) := by
  have hpos := h.toInt_state_pos hτ ht
  cases hpc : s.pc t <;> simp only [hpc, Pc.reads, reduceCtorEq] at ht
  case sharedAcquired => exact releases_sharedAcquired s t hpc hpos
  case reading => exact releases_reading s t hpc hpos
  case sharedUnlockCheck => exact releases_sharedUnlockCheck s t hpc hpos
  case sharedUnlockLoad => exact releases_sharedUnlockLoad s t hpc hpos
  case sharedUnlockCas c => exact releases_sharedUnlockCas s t hpc hpos

/-- The holders of the mutex alone wake every sleeper: the writer, or the readers one after
another, let go, and the unlock that leaves `state_` at `0` finds the sleepers among the
contenders and wakes them all. -/
theorem releases_no_sleeper (h : Inv s) (hτ : Fintype.card τ < 2 ^ 31) :
    ∃ s', Releases s s' ∧ ∀ u, (s'.pc u).sleeping = false := by
  obtain ⟨n, hn⟩ : ∃ n, count s.pc Pc.reads = n := ⟨_, rfl⟩
  -- on the number of readers, which each reader's release lowers
  induction n using Nat.strong_induction_on generalizing s with
  | _ n ih =>
  by_cases hsleep : ∃ u, (s.pc u).sleeping
  swap
  · exact ⟨s, .refl s, fun u => Bool.eq_false_iff.2 fun hu => hsleep ⟨u, hu⟩⟩
  obtain ⟨v, hv⟩ := hsleep
  -- an unlock that loads `num_contenders_` after `state_` went to `0` sees the sleeper
  have hwake : ∀ {s₁ : ReaderWriterMutex τ} (t : τ), Releases s s₁ →
      (s₁.pc t).waking → s₁.numContenders = s.numContenders →
      ∃ s', Releases s s' ∧ ∀ u, (s'.pc u).sleeping = false :=
    fun _ hr ht hc => ⟨_, hr.trans (releases_waking ht (hc ▸ h.numContenders_pos hτ hv)),
      sleeping_wokenAll⟩
  rcases h.wakeup ⟨v, hv⟩ with hne | ⟨t, ht⟩
  · by_cases hw : count s.pc Pc.writes = 0
    · -- readers hold the mutex, as `state_` counts them and is not `0`; the first lets go
      have hpos : 0 < count s.pc Pc.reads := by
        rw [← h.reader_state hw]
        exact Nat.pos_of_ne_zero fun h0 => hne (BitVec.eq_of_toNat_eq (by simpa using h0))
      obtain ⟨t, ht⟩ := count_pos_iff.1 hpos
      have hr := h.releases_reader hτ ht
      by_cases hlast : s.state - 1 = 0
      · -- the last reader goes on to wake the sleepers
        have hpc : (s.readerReleased t).pc t = .unlockLoadContenders := by
          simp only [readerReleased, Function.update_self]
          exact if_pos hlast
        exact hwake t hr (by rw [hpc]; rfl) rfl
      · have hleave : count (Function.update s.pc t .idle) Pc.reads + 1 = count s.pc Pc.reads :=
          count_update_leave ht rfl
        have hfewer : count (s.readerReleased t).pc Pc.reads < n := by
          simp only [readerReleased, if_neg hlast]
          omega
        obtain ⟨s', hr', hs'⟩ := ih _ hfewer (h.of_releases hτ hr) rfl
        exact ⟨s', hr.trans hr', hs'⟩
    · -- the writer lets go
      obtain ⟨t, ht⟩ := count_pos_iff.1 (Nat.pos_of_ne_zero hw)
      exact hwake t (h.releases_writer ht) (by simp [writerReleased, Pc.waking]) rfl
  · exact hwake t (.refl s) ht rfl

end Inv

/-! ## Over every interleaving -/

/-- Over every interleaving from `ReaderWriterMutex()`: at most one thread writes, and no thread
reads while one does; `state_` is `-1` exactly while a thread writes, and else the number of
readers; `num_contenders_` is the number of threads between its `fetch_add(1)` and its
`fetch_sub(1)`; and no `LOG(FATAL)` or `DCHECK` of the lock and unlock paths fires. -/
theorem run_reader_writer_exclusion (hτ : Fintype.card τ < 2 ^ 31) {actions : List (Action τ)}
    (hrun : run next init actions = some s) :
    (∀ t u, (s.pc t).writes → (s.pc u).writes → t = u) ∧
    (∀ t u, (s.pc t).writes → (s.pc u).reads = false) ∧
    (s.state = -1 ↔ ∃ t, (s.pc t).writes) ∧
    ((∀ t, (s.pc t).writes = false) → s.state.toInt = count s.pc Pc.reads) ∧
    s.numContenders.toInt = count s.pc Pc.contends ∧
    (∀ t, s.pc t ≠ .aborted) := by
  have h := run_inv hτ hrun
  have hreads := count_le s.pc Pc.reads
  refine ⟨fun _ _ => h.eq_of_writes, fun _ u ht => h.reads_eq_false ht u, ⟨?_, ?_⟩, ?_, ?_,
    h.not_aborted⟩
  · -- with no writer `state_` counts the readers, and `-1` is too many
    intro hneg
    by_contra hnone
    have hw : count s.pc Pc.writes = 0 :=
      count_eq_zero.2 fun t => Bool.eq_false_iff.2 fun ht => hnone ⟨t, ht⟩
    have hstate := h.reader_state hw
    rw [hneg] at hstate
    have hnat : (-1 : BitVec 32).toNat = 2 ^ 32 - 1 := rfl
    omega
  · rintro ⟨t, ht⟩
    exact h.state_of_writes ht
  · intro hnone
    have hstate := h.reader_state (count_eq_zero.2 hnone)
    rw [toInt_eq_toNat_of_lt_two_pow_31 (by omega), hstate]
  · have hle := count_le s.pc Pc.contends
    rw [toInt_eq_toNat_of_lt_two_pow_31 (by rw [h.contenders_eq]; omega), h.contenders_eq]

/-- The two threads of the witnesses. -/
inductive Thread
  | reader
  | writer
  deriving DecidableEq

instance : Fintype Thread where
  elems := {.reader, .writer}
  complete t := by cases t <;> simp

/-- The reader reads; the writer calls `ExclusiveLock`, finds the reader, gives up spinning and
sleeps; the reader unlocks, sees the contender and wakes every sleeper; the writer writes. -/
def handoff : List (Action Thread) :=
  [.sharedLock .reader, .step .reader, .step .reader, .step .reader,
   .exclusiveLock .writer, .step .writer, .fail .writer, .step .writer, .step .writer,
   .sharedUnlock .reader, .step .reader, .step .reader, .step .reader, .step .reader,
   .step .reader,
   .step .writer, .step .writer, .step .writer, .step .writer]

theorem handoff_reader_writer_exclusion :
    ∃ s, run next init handoff = some s ∧ s.pc .writer = .writing ∧ s.state = -1 := by
  refine ⟨_, rfl, rfl, ?_⟩
  exact (run_reader_writer_exclusion (by decide)
    (show run next init handoff = some _ from rfl)).2.2.1.2 ⟨.writer, rfl⟩

/-- A thread asleep in the futex is never stranded: a thread writes or reads, and its unlock
will find the contender, or an unlock that left `state_` at `0` is on its way to waking every
sleeper. -/
theorem run_sleeper_has_holder_or_waker (hτ : Fintype.card τ < 2 ^ 31)
    {actions : List (Action τ)} (hrun : run next init actions = some s)
    (hsleep : ∃ t, (s.pc t).sleeping) :
    ∃ t, (s.pc t).writes ∨ (s.pc t).reads ∨ (s.pc t).waking := by
  have h := run_inv hτ hrun
  rcases h.wakeup hsleep with hne | ⟨t, ht⟩
  · by_cases hw : count s.pc Pc.writes = 0
    · -- `state_` counts the readers, and it is not `0`
      have hpos : 0 < count s.pc Pc.reads := by
        rw [← h.reader_state hw]
        exact Nat.pos_of_ne_zero fun h0 => hne (BitVec.eq_of_toNat_eq (by simpa using h0))
      obtain ⟨t, ht⟩ := count_pos_iff.1 hpos
      exact ⟨t, .inr (.inl ht)⟩
    · obtain ⟨t, ht⟩ := count_pos_iff.1 (Nat.pos_of_ne_zero hw)
      exact ⟨t, .inl ht⟩
  · exact ⟨t, .inr (.inr ht)⟩

theorem handoff_sleeper_has_holder_or_waker :
    ∃ s, run next init (handoff.take 9) = some s ∧ (s.pc .writer).sleeping ∧
      ∃ t, (s.pc t).writes ∨ (s.pc t).reads ∨ (s.pc t).waking := by
  refine ⟨_, rfl, rfl, ?_⟩
  exact run_sleeper_has_holder_or_waker (by decide)
    (show run next init (handoff.take 9) = some _ from rfl) ⟨.writer, rfl⟩

/-- `IsExclusiveHeld(self)` is true of a thread only while it writes, and is true of the writer
from its store of `exclusive_owner_` to its unlock's first load: so `AssertNotExclusiveHeld` at
the call of `ExclusiveLock` and `AssertExclusiveHeld` at the call of `ExclusiveUnlock` hold. -/
theorem run_isExclusiveHeld_writer (hτ : Fintype.card τ < 2 ^ 31) {actions : List (Action τ)}
    (hrun : run next init actions = some s) :
    (∀ t, s.isExclusiveHeld t → (s.pc t).writes) ∧
    (∀ t, (s.pc t).owner → s.isExclusiveHeld t) := by
  have h := run_inv hτ hrun
  refine ⟨fun t ht => ?_, fun t ht => ?_⟩
  · have ho := exclusiveOwner_of_getExclusiveOwnerTid (by simpa [isExclusiveHeld] using ht)
    exact Pc.writes_of_named (h.owner_named t ho)
  · simp [isExclusiveHeld, h.getExclusiveOwnerTid_of_owner ht]

theorem handoff_isExclusiveHeld_writer :
    ∃ s, run next init handoff = some s ∧ s.isExclusiveHeld .writer ∧
      s.isExclusiveHeld .reader = false := by
  refine ⟨_, rfl, ?_⟩
  have hrun : run next init handoff = some _ := rfl
  exact ⟨(run_isExclusiveHeld_writer (by decide) hrun).2 .writer rfl, rfl⟩

/-- No sleeper is ever stranded: from every state a run reaches, the threads can go on, by their
steps and unlock calls alone, with no lock call and no spurious failure or wake-up, to a state
where no thread sleeps in the futex. -/
theorem run_sleepers_woken (hτ : Fintype.card τ < 2 ^ 31) {actions : List (Action τ)}
    (hrun : run next init actions = some s) :
    ∃ more : List (Action τ), (∀ a ∈ more, a.isRelease) ∧
      ∃ s', run next s more = some s' ∧ ∀ t, (s'.pc t).sleeping = false := by
  obtain ⟨s', ⟨more, hall, hmore⟩, hs'⟩ := (run_inv hτ hrun).releases_no_sleeper hτ
  exact ⟨more, hall, s', hmore, hs'⟩

theorem handoff_sleepers_woken :
    ∃ s, run next init (handoff.take 9) = some s ∧ (s.pc .writer).sleeping ∧
      ∃ more : List (Action Thread), (∀ a ∈ more, a.isRelease) ∧
        ∃ s', run next s more = some s' ∧ ∀ t, (s'.pc t).sleeping = false := by
  refine ⟨_, rfl, rfl, ?_⟩
  exact run_sleepers_woken (by decide) (show run next init (handoff.take 9) = some _ from rfl)

end ReaderWriterMutex

end Art
