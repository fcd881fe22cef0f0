import Art.Runtime.Mutex

/-!
# Mutual exclusion of the futex mutex

Over every interleaving of `ExclusiveLock`, `ExclusiveTryLock` and `ExclusiveUnlock` from
`Mutex()`: at most one thread owns the mutex; the held bit of `state_and_contenders_` says
whether one does and the bits above count the contenders; the holder is `exclusive_owner_`; no
`LOG(FATAL)` or `DCHECK` of these functions fires; and a thread asleep in the futex always has
a thread that will wake it or move on: the owner, whose unlock sees the contenders, a thread at
its `FUTEX_WAKE`, or a thread of `ExclusiveLock` still awake.

`Step` says once what an action can do (`next_step`); the invariant `Inv` is kept by each of its
cases, and so holds after every run (`run_inv`).  The threads are any finite type with fewer than
`2 ^ 30` members, so that the contenders cannot overflow the word.
-/

namespace Art

namespace Mutex

open Transition

/-! ## Program counters -/

-- The predicates list every program counter: a wildcard makes their equation lemmas slow.

/-- Between setting the held bit and clearing it. -/
def Pc.owns : Pc → Bool
  | .acquired | .holding | .unlockLoad | .unlockStoreOwner _ | .unlockCas _ => true
  | .idle | .lockLoad | .lockCas _ | .lockSpin _ _ | .lockIncrement _ | .lockWait _
  | .lockSleeping _ | .lockReload | .lockDecrement | .tryLoad | .tryCas _ | .unlockWake
  | .aborted => false

/-- Between `increment_contenders()` and `decrement_contenders()`. -/
def Pc.contends : Pc → Bool
  | .lockWait _ | .lockSleeping _ | .lockReload | .lockDecrement => true
  | .idle | .lockLoad | .lockCas _ | .lockSpin _ _ | .lockIncrement _ | .tryLoad | .tryCas _
  | .acquired | .holding | .unlockLoad | .unlockStoreOwner _ | .unlockCas _ | .unlockWake
  | .aborted => false

/-- In `ExclusiveLock`, awake, and not yet past its compare-and-set. -/
def Pc.locking : Pc → Bool
  | .lockLoad | .lockCas _ | .lockSpin _ _ | .lockIncrement _ | .lockWait _ | .lockReload
  | .lockDecrement => true
  | .idle | .lockSleeping _ | .tryLoad | .tryCas _ | .acquired | .holding | .unlockLoad
  | .unlockStoreOwner _ | .unlockCas _ | .unlockWake | .aborted => false

/-- Where `exclusive_owner_` may name the thread: after its store in `ExclusiveLock`, and in
`ExclusiveUnlock` before the store of `0`. -/
def Pc.named : Pc → Bool
  | .holding | .unlockLoad | .unlockStoreOwner _ => true
  | .idle | .lockLoad | .lockCas _ | .lockSpin _ _ | .lockIncrement _ | .lockWait _
  | .lockSleeping _ | .lockReload | .lockDecrement | .tryLoad | .tryCas _ | .acquired
  | .unlockCas _ | .unlockWake | .aborted => false

/-- The `cur_state` a thread keeps agrees with the branch its code took on the held bit. -/
def Pc.CurOk : Pc → Prop
  | .lockCas c | .tryCas c => c &&& kHeldMask = 0
  | .lockSpin c _ | .lockIncrement c | .lockWait c | .lockSleeping c => c &&& kHeldMask ≠ 0
  | .idle | .lockLoad | .lockReload | .lockDecrement | .tryLoad | .acquired | .holding
  | .unlockLoad | .unlockStoreOwner _ | .unlockCas _ | .unlockWake | .aborted => True

theorem Pc.owns_of_named {p : Pc} (h : p.named) : p.owns := by
  cases p <;> simp [Pc.named, Pc.owns] at h ⊢

theorem Pc.contends_of_sleeping {p : Pc} (h : p.sleeping) : p.contends := by
  cases p <;> simp [Pc.sleeping, Pc.contends] at h ⊢

/-! ## The state word -/

theorem and_kHeldMask_eq_zero_iff (w : BitVec 32) : w &&& kHeldMask = 0 ↔ w.toNat % 2 = 0 := by
  have h : (w &&& kHeldMask).toNat = w.toNat % 2 := by
    simp [kHeldMask, BitVec.toNat_and, Nat.and_one_is_mod]
  rw [← BitVec.toNat_inj, h]
  rfl

theorem getLsbD_kHeldMask (i : Nat) : kHeldMask.getLsbD i = decide (i = 0) := by
  simp [kHeldMask, BitVec.getLsbD_one]

/-- Setting the held bit of a free word adds one. -/
theorem toNat_or_kHeldMask {c : BitVec 32} (h : c &&& kHeldMask = 0) :
    (c ||| kHeldMask).toNat = c.toNat + 1 := by
  rw [← BitVec.add_eq_or_of_and_eq_zero _ _ h, BitVec.toNat_add]
  rw [and_kHeldMask_eq_zero_iff] at h
  have hone : kHeldMask.toNat = 1 := rfl
  have hlt := c.isLt
  rw [hone]
  omega

/-- Clearing the held bit of a held word takes one away. -/
theorem toNat_and_not_kHeldMask {c : BitVec 32} (h : c &&& kHeldMask ≠ 0) :
    (c &&& ~~~kHeldMask).toNat = c.toNat - 1 := by
  have hodd : c.toNat % 2 = 1 := by
    rw [Ne, and_kHeldMask_eq_zero_iff] at h
    omega
  have hbit : c.getLsbD 0 = true := by
    simpa [BitVec.getLsbD, Nat.testBit, Nat.one_and_eq_mod_two] using hodd
  -- `c` is its other bits and the held bit, which the others leave clear
  have hsplit : (c &&& ~~~kHeldMask) + kHeldMask = c := by
    rw [BitVec.add_eq_or_of_and_eq_zero]
    · refine BitVec.eq_of_getLsbD_eq fun i hi => ?_
      simp only [BitVec.getLsbD_and, BitVec.getLsbD_or, BitVec.getLsbD_not, getLsbD_kHeldMask]
      by_cases hi0 : i = 0
      · subst hi0
        simp [hbit]
      · simp [hi0, hi]
    · refine BitVec.eq_of_getLsbD_eq fun i hi => ?_
      simp only [BitVec.getLsbD_and, BitVec.getLsbD_not, getLsbD_kHeldMask, BitVec.getLsbD_zero]
      cases decide (i = 0) <;> simp
  have hnat := congrArg BitVec.toNat hsplit
  have hone : kHeldMask.toNat = 1 := rfl
  rw [BitVec.toNat_add, hone] at hnat
  have hlt := (c &&& ~~~kHeldMask).isLt
  generalize (c &&& ~~~kHeldMask).toNat = x at hnat hlt ⊢
  omega

theorem toNat_add_kContenderIncrement {c : BitVec 32} (h : c.toNat + 2 < 2 ^ 32) :
    (c + kContenderIncrement).toNat = c.toNat + 2 := by
  have hinc : kContenderIncrement.toNat = 2 := rfl
  rw [BitVec.toNat_add, hinc, Nat.mod_eq_of_lt h]

theorem toNat_sub_kContenderIncrement {c : BitVec 32} (h : 2 ≤ c.toNat) :
    (c - kContenderIncrement).toNat = c.toNat - 2 := by
  have hinc : kContenderIncrement.toNat = 2 := rfl
  rw [BitVec.toNat_sub_of_le (by rw [BitVec.le_def, hinc]; exact h), hinc]

/-- `cur_state += kContenderIncrement` keeps the held bit. -/
theorem add_kContenderIncrement_and_kHeldMask (c : BitVec 32) :
    (c + kContenderIncrement) &&& kHeldMask = 0 ↔ c &&& kHeldMask = 0 := by
  have hinc : kContenderIncrement.toNat = 2 := rfl
  rw [and_kHeldMask_eq_zero_iff, and_kHeldMask_eq_zero_iff, BitVec.toNat_add, hinc]
  omega

/-! ## What one thread can do -/

section Moves

variable {τ : Type}

/-- The moves of one thread that write neither shared word, with the guards the invariant
needs; `s` is the state the thread reads.  A move with two causes in the code (a failed and a
spurious compare-and-set, say) is one constructor without the guard. -/
inductive Move (s : Mutex τ) : Pc → Pc → Prop
  | lock : Move s .idle .lockLoad
  | tryLock : Move s .idle .tryLoad
  | unlock : Move s .holding .unlockLoad
  | lockLoadFree (h : s.stateAndContenders &&& kHeldMask = 0) :
      Move s .lockLoad (.lockCas s.stateAndContenders)
  | lockLoadHeld (h : s.stateAndContenders &&& kHeldMask ≠ 0) :
      Move s .lockLoad (.lockSpin s.stateAndContenders 1)
  | lockCasFail (c : BitVec 32) : Move s (.lockCas c) .lockLoad
  | lockSpinFree (c : BitVec 32) (i : Nat) : Move s (.lockSpin c i) .lockLoad
  | lockSpinAgain (c : BitVec 32) (i : Nat) : Move s (.lockSpin c i) (.lockSpin c (i + 1))
  | lockSpinGiveUp (c : BitVec 32) (i : Nat) : Move s (.lockSpin c i) (.lockIncrement c)
  | lockSleep (c : BitVec 32) (h : s.stateAndContenders = c) :
      Move s (.lockWait c) (.lockSleeping c)
  | lockWaitFail (c : BitVec 32) : Move s (.lockWait c) .lockReload
  | lockWoken (c : BitVec 32) : Move s (.lockSleeping c) .lockReload
  | lockReloadHeld (h : s.stateAndContenders &&& kHeldMask ≠ 0) :
      Move s .lockReload (.lockWait s.stateAndContenders)
  | lockReloadFree : Move s .lockReload .lockDecrement
  | tryLoadFree (h : s.stateAndContenders &&& kHeldMask = 0) :
      Move s .tryLoad (.tryCas s.stateAndContenders)
  | tryLoadHeld : Move s .tryLoad .idle
  | tryCasFail (c : BitVec 32) : Move s (.tryCas c) .tryLoad
  | acquiredOwned (h : s.exclusiveOwner ≠ none) : Move s .acquired .aborted
  | unlockLoadHeld (h : s.stateAndContenders &&& kHeldMask ≠ 0) :
      Move s .unlockLoad (.unlockStoreOwner s.stateAndContenders)
  | unlockLoadFree (h : s.stateAndContenders &&& kHeldMask = 0) : Move s .unlockLoad .aborted
  | unlockCasFail (c : BitVec 32) : Move s (.unlockCas c) .unlockLoad
  | wakeNone (h : ∀ u, (s.pc u).sleeping = false) : Move s .unlockWake .idle
  /-- The waker's part of a `FUTEX_WAKE` that woke a thread, which is then awake in
  `ExclusiveLock`. -/
  | wakeDone (h : ∃ u, (s.pc u).locking) : Move s .unlockWake .idle

namespace Move

variable {s : Mutex τ} {p q : Pc}

theorem owns_eq (hm : Move s p q) (hq : q ≠ .aborted) : p.owns = q.owns := by
  cases hm <;> first | rfl | exact absurd rfl hq

theorem contends_eq (hm : Move s p q) : p.contends = q.contends := by
  cases hm <;> rfl

theorem curOk (hm : Move s p q) (hp : p.CurOk) : q.CurOk := by
  cases hm <;> simp_all [Pc.CurOk]

theorem named (hm : Move s p q) (hp : p.named) (hq : q ≠ .aborted) : q.named := by
  cases hm <;> simp_all [Pc.named]

theorem ne_holding (hm : Move s p q) : q ≠ .holding := by
  cases hm <;> simp

/-- A thread goes to sleep only on a held mutex. -/
theorem held_of_sleeping (hm : Move s p q) (hp : p.CurOk) (hq : q.sleeping) :
    s.stateAndContenders &&& kHeldMask ≠ 0 := by
  cases hm <;> simp_all [Pc.sleeping, Pc.CurOk]

/-- A thread awake in `ExclusiveLock` stays so, or goes to sleep. -/
theorem locking (hm : Move s p q) (hp : p.locking) : q.locking ∨ q.sleeping := by
  cases hm <;> simp_all [Pc.locking, Pc.sleeping]

/-- A waker leaves its `FUTEX_WAKE` when no thread sleeps, or once one is awake again. -/
theorem of_unlockWake (hm : Move s .unlockWake q) :
    (∀ u, (s.pc u).sleeping = false) ∨ ∃ u, (s.pc u).locking := by
  cases hm with
  | wakeNone h => exact .inl h
  | wakeDone h => exact .inr h

end Move

end Moves

/-! ## The invariant -/

section Invariant

variable {τ : Type} [Fintype τ]

/-- No sleeper is stranded: it has an owner of the mutex, a thread at its `FUTEX_WAKE`, or a
thread awake in `ExclusiveLock`. -/
def NoLostWakeup (pc : τ → Pc) : Prop :=
  (∃ t, (pc t).sleeping) →
    count pc Pc.owns = 1 ∨ (∃ t, pc t = .unlockWake) ∨ ∃ t, (pc t).locking

/-- What holds of the mutex after every run. -/
structure Inv (s : Mutex τ) : Prop where
  /-- At most one thread owns the mutex. -/
  owners_le_one : count s.pc Pc.owns ≤ 1
  /-- `state_and_contenders_` is the held bit and twice the number of contenders. -/
  word_eq : s.stateAndContenders.toNat = count s.pc Pc.owns + 2 * count s.pc Pc.contends
  cur_ok : ∀ t, (s.pc t).CurOk
  /-- `exclusive_owner_` names a thread only between its store and its clearing. -/
  owner_named : ∀ t, s.exclusiveOwner = some t → (s.pc t).named
  holding_owner : ∀ t, s.pc t = .holding → s.exclusiveOwner = some t
  not_aborted : ∀ t, s.pc t ≠ .aborted
  wakeup : NoLostWakeup s.pc

namespace Inv

variable {s : Mutex τ} {t : τ} {q : Pc}

theorem eq_of_owns (h : Inv s) {u : τ} (ht : (s.pc t).owns) (hu : (s.pc u).owns) : t = u :=
  eq_of_count_le_one h.owners_le_one ht hu

theorem count_owns_eq_one (h : Inv s) (ht : (s.pc t).owns) : count s.pc Pc.owns = 1 := by
  have hpos : 0 < count s.pc Pc.owns := count_pos_iff.2 ⟨t, ht⟩
  have := h.owners_le_one
  omega

/-- The held bit is clear exactly when no thread owns the mutex. -/
theorem held_eq_zero_iff (h : Inv s) :
    s.stateAndContenders &&& kHeldMask = 0 ↔ count s.pc Pc.owns = 0 := by
  rw [and_kHeldMask_eq_zero_iff, h.word_eq]
  have := h.owners_le_one
  omega

theorem count_owns_of_held (h : Inv s) (hw : s.stateAndContenders &&& kHeldMask ≠ 0) :
    count s.pc Pc.owns = 1 := by
  rw [Ne, h.held_eq_zero_iff] at hw
  have := h.owners_le_one
  omega

/-- With no owner, `exclusive_owner_` is `0`. -/
theorem owner_eq_none_of_free (h : Inv s) (h0 : count s.pc Pc.owns = 0) :
    s.exclusiveOwner = none := by
  cases ho : s.exclusiveOwner with
  | none => rfl
  | some u =>
    have hpos : 0 < count s.pc Pc.owns :=
      count_pos_iff.2 ⟨u, Pc.owns_of_named (h.owner_named u ho)⟩
    omega

/-- An owner past its store of `0` leaves `exclusive_owner_` at `0`. -/
theorem owner_eq_none (h : Inv s) (ht : (s.pc t).owns) (hn : (s.pc t).named = false) :
    s.exclusiveOwner = none := by
  cases ho : s.exclusiveOwner with
  | none => rfl
  | some u =>
    have hu := h.owner_named u ho
    have htu : t = u := h.eq_of_owns ht (Pc.owns_of_named hu)
    subst htu
    simp [hn] at hu

theorem word_add_lt (h : Inv s) (hτ : Fintype.card τ < 2 ^ 30) :
    s.stateAndContenders.toNat + 2 < 2 ^ 32 := by
  have howns := count_le s.pc Pc.owns
  have hcont := count_le s.pc Pc.contends
  have := h.word_eq
  omega

/-- Neither the `LOG(FATAL)` of `ExclusiveUnlock` nor the `DCHECK` of an acquired mutex fires. -/
theorem move_ne_aborted (h : Inv s) (hm : Move s (s.pc t) q) : q ≠ .aborted := by
  generalize hp : s.pc t = p at hm
  cases hm
  case acquiredOwned hown =>
    exact absurd (h.owner_eq_none (show (s.pc t).owns by simp [hp, Pc.owns])
      (by simp [hp, Pc.named])) hown
  case unlockLoadFree hfree =>
    have hone := h.count_owns_eq_one (show (s.pc t).owns by simp [hp, Pc.owns])
    have hzero := h.held_eq_zero_iff.1 hfree
    omega
  all_goals simp

end Inv

theorem count_init {p : Pc → Bool} (hp : p .idle = false) : count (init : Mutex τ).pc p = 0 :=
  count_eq_zero.2 fun _ => hp

theorem inv_init : Inv (init : Mutex τ) where
  owners_le_one := by rw [count_init rfl]; omega
  word_eq := by rw [count_init rfl, count_init rfl]; rfl
  cur_ok _ := trivial
  owner_named _ h := by simp [init] at h
  holding_owner _ h := by simp [init] at h
  not_aborted _ := by simp [init]
  wakeup := fun ⟨_, h⟩ => by simp [init, Pc.sleeping] at h

end Invariant

/-! ## What one action does -/

variable {τ : Type} [DecidableEq τ]

/-- What one action does, by the shared words it writes. -/
inductive Step (s : Mutex τ) : Mutex τ → Prop
  | move (t : τ) (q : Pc) (h : Move s (s.pc t) q) : Step s (s.setPc t q)
  | acquire (t : τ) (c : BitVec 32) (hpc : s.pc t = .lockCas c ∨ s.pc t = .tryCas c)
      (hc : s.stateAndContenders = c) :
      Step s { s with stateAndContenders := c ||| kHeldMask,
                      pc := Function.update s.pc t .acquired }
  | increment (t : τ) (c : BitVec 32) (hpc : s.pc t = .lockIncrement c) :
      Step s { s with stateAndContenders := s.stateAndContenders + kContenderIncrement,
                      pc := Function.update s.pc t (.lockWait (c + kContenderIncrement)) }
  | decrement (t : τ) (hpc : s.pc t = .lockDecrement) :
      Step s { s with stateAndContenders := s.stateAndContenders - kContenderIncrement,
                      pc := Function.update s.pc t .lockLoad }
  | storeOwner (t : τ) (hpc : s.pc t = .acquired) (howner : s.exclusiveOwner = none) :
      Step s { s with exclusiveOwner := some t, pc := Function.update s.pc t .holding }
  | clearOwner (t : τ) (c : BitVec 32) (hpc : s.pc t = .unlockStoreOwner c) :
      Step s { s with exclusiveOwner := none, pc := Function.update s.pc t (.unlockCas c) }
  | release (t : τ) (c : BitVec 32) (hpc : s.pc t = .unlockCas c)
      (hc : s.stateAndContenders = c) :
      Step s { s with stateAndContenders := c &&& ~~~kHeldMask,
                      pc := Function.update s.pc t
                        (if c &&& ~~~kHeldMask ≠ 0 then .unlockWake else .idle) }
  | wake (t u : τ) (hpc : s.pc t = .unlockWake) (hu : (s.pc u).sleeping) :
      Step s ((s.setPc u .lockReload).setPc t .idle)

variable {s s' : Mutex τ} {t : τ} {p q : Pc}

theorem Step.of_move (hpc : s.pc t = p) (hm : Move s p q) : Step s (s.setPc t q) :=
  .move t q (hpc ▸ hm)

theorem stepThread_step (h : s.stepThread t = some s') : Step s s' := by
  unfold stepThread at h
  cases hpc : s.pc t <;> simp only [hpc, reduceCtorEq] at h
  case lockLoad =>
    split at h <;> cases h
    · exact .of_move hpc (.lockLoadFree ‹_›)
    · exact .of_move hpc (.lockLoadHeld ‹_›)
  case lockCas =>
    split at h <;> cases h
    · exact .acquire t _ (.inl hpc) ‹_›
    · exact .of_move hpc (.lockCasFail _)
  case lockSpin =>
    split at h
    · cases h
      exact .of_move hpc (.lockSpinFree _ _)
    · split at h <;> cases h
      · exact .of_move hpc (.lockSpinAgain _ _)
      · exact .of_move hpc (.lockSpinGiveUp _ _)
  case lockIncrement =>
    cases h
    exact .increment t _ hpc
  case lockWait =>
    split at h <;> cases h
    · exact .of_move hpc (.lockSleep _ ‹_›)
    · exact .of_move hpc (.lockWaitFail _)
  case lockReload =>
    split at h <;> cases h
    · exact .of_move hpc (.lockReloadHeld ‹_›)
    · exact .of_move hpc .lockReloadFree
  case lockDecrement =>
    cases h
    exact .decrement t hpc
  case tryLoad =>
    split at h <;> cases h
    · exact .of_move hpc (.tryLoadFree ‹_›)
    · exact .of_move hpc .tryLoadHeld
  case tryCas =>
    split at h <;> cases h
    · exact .acquire t _ (.inr hpc) ‹_›
    · exact .of_move hpc (.tryCasFail _)
  case acquired =>
    split at h <;> cases h
    · exact .of_move hpc (.acquiredOwned ‹_›)
    · exact .storeOwner t hpc (not_not.1 ‹_›)
  case unlockLoad =>
    split at h <;> cases h
    · exact .of_move hpc (.unlockLoadHeld ‹_›)
    · exact .of_move hpc (.unlockLoadFree (not_not.1 ‹_›))
  case unlockStoreOwner =>
    cases h
    exact .clearOwner t _ hpc
  case unlockCas =>
    split at h <;> cases h
    · exact .release t _ hpc ‹_›
    · exact .of_move hpc (.unlockCasFail _)

theorem failThread_step (h : s.failThread t = some s') : Step s s' := by
  unfold failThread at h
  split at h <;> rename_i hpc <;> cases h
  · exact .of_move hpc (.lockCasFail _)
  · exact .of_move hpc (.tryCasFail _)
  · exact .of_move hpc (.unlockCasFail _)
  · exact .of_move hpc (.lockSpinGiveUp _ _)
  · exact .of_move hpc (.lockWoken _)

/-- A thread awake in `ExclusiveLock`, or an owner past its store of `exclusive_owner_`, has a
next step. -/
theorem stepThread_isSome (h : (s.pc t).locking ∨ ((s.pc t).owns ∧ s.pc t ≠ .holding)) :
    (s.stepThread t).isSome := by
  unfold stepThread
  cases hpc : s.pc t <;> simp only [hpc, Pc.locking, Pc.owns] at h ⊢ <;> (try simp at h) <;>
    (try split_ifs) <;> rfl

variable [Fintype τ]

/-- Every action taken is a `Step`. -/
theorem next_step {a : Action τ} (h : next s a = some s') : Step s s' := by
  cases a with
  | exclusiveLock t =>
    simp only [next, Option.ite_none_right_eq_some, Option.some.injEq] at h
    obtain ⟨hpc, rfl⟩ := h
    exact .of_move hpc .lock
  | exclusiveTryLock t =>
    simp only [next, Option.ite_none_right_eq_some, Option.some.injEq] at h
    obtain ⟨hpc, rfl⟩ := h
    exact .of_move hpc .tryLock
  | exclusiveUnlock t =>
    simp only [next, Option.ite_none_right_eq_some, Option.some.injEq] at h
    obtain ⟨hpc, rfl⟩ := h
    exact .of_move hpc .unlock
  | step t => exact stepThread_step h
  | fail t => exact failThread_step h
  | wake t woken =>
    simp only [next, ne_eq, ite_not] at h
    split at h
    · rename_i hpc
      cases woken with
      | some u =>
        simp only [Option.ite_none_right_eq_some, Option.some.injEq] at h
        obtain ⟨hu, rfl⟩ := h
        exact .wake t u hpc hu
      | none =>
        simp only [Option.ite_none_right_eq_some, Option.some.injEq] at h
        obtain ⟨hnone, rfl⟩ := h
        exact .of_move hpc (.wakeNone hnone)
    · cases h

/-! ## The invariant over every run -/

namespace Inv

variable {c : BitVec 32}

/-! ### The frame of one thread's move -/

theorem cur_ok_update (h : Inv s) (hq : q.CurOk) :
    ∀ u, (Function.update s.pc t q u).CurOk :=
  (Function.forall_update_iff s.pc fun _ p => p.CurOk).2 ⟨hq, fun u _ => h.cur_ok u⟩

theorem not_aborted_update (h : Inv s) (hq : q ≠ .aborted) :
    ∀ u, Function.update s.pc t q u ≠ .aborted :=
  (Function.forall_update_iff s.pc fun _ p => p ≠ .aborted).2 ⟨hq, fun u _ => h.not_aborted u⟩

theorem owner_named_update (h : Inv s) (hq : (s.pc t).named → q.named) :
    ∀ u, s.exclusiveOwner = some u → (Function.update s.pc t q u).named := by
  intro u hu
  by_cases hut : u = t
  · subst hut
    simpa using hq (h.owner_named u hu)
  · simpa [hut] using h.owner_named u hu

theorem holding_owner_update (h : Inv s) (hq : q ≠ .holding) :
    ∀ u, Function.update s.pc t q u = .holding → s.exclusiveOwner = some u := by
  intro u hu
  by_cases hut : u = t
  · subst hut
    simp [hq] at hu
  · exact h.holding_owner u (by simpa [hut] using hu)

/-! ### Each step keeps the invariant -/

theorem move_wakeup (h : Inv s) (hm : Move s (s.pc t) q)
    (hown : count (Function.update s.pc t q) Pc.owns = count s.pc Pc.owns) :
    NoLostWakeup (Function.update s.pc t q) := by
  rintro ⟨u, hu⟩
  rw [hown]
  -- a thread that has just gone to sleep did so on a held mutex
  have hheld : q.sleeping → count s.pc Pc.owns = 1 := fun hq =>
    h.count_owns_of_held (hm.held_of_sleeping (h.cur_ok t) hq)
  by_cases hut : u = t
  · subst hut
    exact .inl (hheld (by simpa using hu))
  · have hu' : (s.pc u).sleeping := by simpa [hut] using hu
    rcases h.wakeup ⟨u, hu'⟩ with hone | ⟨w, hw⟩ | ⟨w, hw⟩
    · exact .inl hone
    · by_cases hwt : w = t
      · -- the waker moves on: no thread sleeps, or one is awake
        subst hwt
        rcases (hw ▸ hm).of_unlockWake with hnone | ⟨v, hv⟩
        · simp [hnone u] at hu'
        · have hvw : v ≠ w := fun hvw => by simp [hvw, hw, Pc.locking] at hv
          exact .inr (.inr ⟨v, by simpa [hvw] using hv⟩)
      · exact .inr (.inl ⟨w, by simp [hwt, hw]⟩)
    · by_cases hwt : w = t
      · subst hwt
        rcases hm.locking hw with hl | hs
        · exact .inr (.inr ⟨w, by simp [hl]⟩)
        · exact .inl (hheld hs)
      · exact .inr (.inr ⟨w, by simp [hwt, hw]⟩)

theorem move (h : Inv s) (hm : Move s (s.pc t) q) : Inv (s.setPc t q) := by
  have hq := h.move_ne_aborted hm
  have hown : count (Function.update s.pc t q) Pc.owns = count s.pc Pc.owns :=
    count_update_of_eq (hm.owns_eq hq)
  have hcont : count (Function.update s.pc t q) Pc.contends = count s.pc Pc.contends :=
    count_update_of_eq hm.contends_eq
  constructor
  case owners_le_one => simpa [hown] using h.owners_le_one
  case word_eq => simpa [hown, hcont] using h.word_eq
  case cur_ok => simpa using h.cur_ok_update (hm.curOk (h.cur_ok t))
  case owner_named => simpa using h.owner_named_update fun hp => hm.named hp hq
  case holding_owner => simpa using h.holding_owner_update hm.ne_holding
  case not_aborted => simpa using h.not_aborted_update hq
  case wakeup => simpa using h.move_wakeup hm hown

/-- `CompareAndSetWeakAcquire` succeeds: the held bit was clear, so no thread owned the mutex. -/
theorem acquire (h : Inv s) (hpc : s.pc t = .lockCas c ∨ s.pc t = .tryCas c)
    (hc : s.stateAndContenders = c) :
    Inv { s with stateAndContenders := c ||| kHeldMask,
                 pc := Function.update s.pc t .acquired } := by
  have hfree : c &&& kHeldMask = 0 := by
    rcases hpc with hpc | hpc <;> simpa [hpc, Pc.CurOk] using h.cur_ok t
  have h0 : count s.pc Pc.owns = 0 := h.held_eq_zero_iff.1 (hc ▸ hfree)
  have hnone := h.owner_eq_none_of_free h0
  have hown : count (Function.update s.pc t .acquired) Pc.owns = count s.pc Pc.owns + 1 :=
    count_update_enter (by rcases hpc with hpc | hpc <;> simp [hpc, Pc.owns]) rfl
  have hcont : count (Function.update s.pc t .acquired) Pc.contends = count s.pc Pc.contends :=
    count_update_of_eq (by rcases hpc with hpc | hpc <;> simp [hpc, Pc.contends])
  constructor
  case owners_le_one => simp only; omega
  case word_eq =>
    simp only
    rw [toNat_or_kHeldMask hfree, ← hc, h.word_eq, hcont]
    omega
  case cur_ok => exact h.cur_ok_update trivial
  case owner_named => simp [hnone]
  case holding_owner => exact h.holding_owner_update (by simp)
  case not_aborted => exact h.not_aborted_update (by simp)
  case wakeup => exact fun _ => .inl (by simp only; omega)

/-- `increment_contenders()`, with `cur_state` following it. -/
theorem increment (h : Inv s) (hτ : Fintype.card τ < 2 ^ 30) (hpc : s.pc t = .lockIncrement c) :
    Inv { s with stateAndContenders := s.stateAndContenders + kContenderIncrement,
                 pc := Function.update s.pc t (.lockWait (c + kContenderIncrement)) } := by
  have hheld : c &&& kHeldMask ≠ 0 := by simpa [hpc, Pc.CurOk] using h.cur_ok t
  have hown : count (Function.update s.pc t (.lockWait (c + kContenderIncrement))) Pc.owns =
      count s.pc Pc.owns := count_update_of_eq (by simp [hpc, Pc.owns])
  have hcont : count (Function.update s.pc t (.lockWait (c + kContenderIncrement))) Pc.contends =
      count s.pc Pc.contends + 1 := count_update_enter (by simp [hpc, Pc.contends]) rfl
  constructor
  case owners_le_one => simpa [hown] using h.owners_le_one
  case word_eq =>
    simp only
    rw [toNat_add_kContenderIncrement (h.word_add_lt hτ), h.word_eq, hown]
    omega
  case cur_ok =>
    refine h.cur_ok_update ?_
    show (c + kContenderIncrement) &&& kHeldMask ≠ 0
    rwa [Ne, add_kContenderIncrement_and_kHeldMask]
  case owner_named => exact h.owner_named_update (by simp [hpc, Pc.named])
  case holding_owner => exact h.holding_owner_update (by simp)
  case not_aborted => exact h.not_aborted_update (by simp)
  case wakeup => exact fun _ => .inr (.inr ⟨t, by simp [Pc.locking]⟩)

/-- `decrement_contenders()`: the thread was one of the contenders the word counts. -/
theorem decrement (h : Inv s) (hpc : s.pc t = .lockDecrement) :
    Inv { s with stateAndContenders := s.stateAndContenders - kContenderIncrement,
                 pc := Function.update s.pc t .lockLoad } := by
  have hown : count (Function.update s.pc t .lockLoad) Pc.owns = count s.pc Pc.owns :=
    count_update_of_eq (by simp [hpc, Pc.owns])
  have hcont : count (Function.update s.pc t .lockLoad) Pc.contends + 1 = count s.pc Pc.contends :=
    count_update_leave (by simp [hpc, Pc.contends]) rfl
  have hpos : 0 < count s.pc Pc.contends := count_pos_iff.2 ⟨t, by simp [hpc, Pc.contends]⟩
  constructor
  case owners_le_one => simpa [hown] using h.owners_le_one
  case word_eq =>
    simp only
    rw [toNat_sub_kContenderIncrement (by rw [h.word_eq]; omega), h.word_eq, hown]
    omega
  case cur_ok => exact h.cur_ok_update trivial
  case owner_named => exact h.owner_named_update (by simp [hpc, Pc.named])
  case holding_owner => exact h.holding_owner_update (by simp)
  case not_aborted => exact h.not_aborted_update (by simp)
  case wakeup => exact fun _ => .inr (.inr ⟨t, by simp [Pc.locking]⟩)

/-- `exclusive_owner_.store(SafeGetTid(self))` after the `DCHECK` that it was `0`. -/
theorem storeOwner (h : Inv s) (hpc : s.pc t = .acquired) (howner : s.exclusiveOwner = none) :
    Inv { s with exclusiveOwner := some t, pc := Function.update s.pc t .holding } := by
  have hown : count (Function.update s.pc t .holding) Pc.owns = count s.pc Pc.owns :=
    count_update_of_eq (by simp [hpc, Pc.owns])
  have hcont : count (Function.update s.pc t .holding) Pc.contends = count s.pc Pc.contends :=
    count_update_of_eq (by simp [hpc, Pc.contends])
  have hone := h.count_owns_eq_one (show (s.pc t).owns by simp [hpc, Pc.owns])
  constructor
  case owners_le_one => simp only [hown]; omega
  case word_eq => simpa [hown, hcont] using h.word_eq
  case cur_ok => exact h.cur_ok_update trivial
  case owner_named =>
    rintro u ⟨⟩
    simp [Pc.named]
  case holding_owner =>
    intro u hu
    by_cases hut : u = t
    · simp [hut]
    · -- another holder would have stored itself in `exclusive_owner_`
      have := h.holding_owner u (by simpa [hut] using hu)
      simp [howner] at this
  case not_aborted => exact h.not_aborted_update (by simp)
  case wakeup => exact fun _ => .inl (by simp only [hown]; exact hone)

/-- `exclusive_owner_.store(0)` in `ExclusiveUnlock`. -/
theorem clearOwner (h : Inv s) (hpc : s.pc t = .unlockStoreOwner c) :
    Inv { s with exclusiveOwner := none, pc := Function.update s.pc t (.unlockCas c) } := by
  have hown : count (Function.update s.pc t (.unlockCas c)) Pc.owns = count s.pc Pc.owns :=
    count_update_of_eq (by simp [hpc, Pc.owns])
  have hcont : count (Function.update s.pc t (.unlockCas c)) Pc.contends =
      count s.pc Pc.contends := count_update_of_eq (by simp [hpc, Pc.contends])
  have ht : (s.pc t).owns := by simp [hpc, Pc.owns]
  constructor
  case owners_le_one => simpa [hown] using h.owners_le_one
  case word_eq => simpa [hown, hcont] using h.word_eq
  case cur_ok => exact h.cur_ok_update trivial
  case owner_named => simp
  case holding_owner =>
    intro u hu
    by_cases hut : u = t
    · simp [hut] at hu
    · -- a holder other than the unlocking owner would be a second owner
      have hu' : s.pc u = .holding := by simpa [hut] using hu
      exact absurd (h.eq_of_owns ht (by simp [hu', Pc.owns])) (Ne.symm hut)
  case not_aborted => exact h.not_aborted_update (by simp)
  case wakeup => exact fun _ => .inl (by simp only [hown]; exact h.count_owns_eq_one ht)

/-- `CompareAndSetWeakRelease(cur_state, new_state)` succeeds: the owner clears the held bit and
wakes a contender if the word counts one. -/
theorem release (h : Inv s) (hpc : s.pc t = .unlockCas c) (hc : s.stateAndContenders = c) :
    Inv { s with stateAndContenders := c &&& ~~~kHeldMask,
                 pc := Function.update s.pc t
                   (if c &&& ~~~kHeldMask ≠ 0 then .unlockWake else .idle) } := by
  set q : Pc := if c &&& ~~~kHeldMask ≠ 0 then .unlockWake else .idle with hq
  have ht : (s.pc t).owns := by simp [hpc, Pc.owns]
  have hone := h.count_owns_eq_one ht
  have hheld : c &&& kHeldMask ≠ 0 := by
    rw [← hc, Ne, h.held_eq_zero_iff]
    omega
  have hqown : q.owns = false := by rw [hq]; split <;> rfl
  have hown : count (Function.update s.pc t q) Pc.owns + 1 = count s.pc Pc.owns :=
    count_update_leave ht hqown
  have hcont : count (Function.update s.pc t q) Pc.contends = count s.pc Pc.contends :=
    count_update_of_eq (by rw [hq, hpc]; split <;> rfl)
  have hword : (c &&& ~~~kHeldMask).toNat = 2 * count s.pc Pc.contends := by
    rw [toNat_and_not_kHeldMask hheld, ← hc, h.word_eq]
    omega
  constructor
  case owners_le_one => simp only; omega
  case word_eq => simp only; omega
  case cur_ok => exact h.cur_ok_update (by rw [hq]; split <;> trivial)
  case owner_named =>
    simp [h.owner_eq_none ht (by simp [hpc, Pc.named])]
  case holding_owner => exact h.holding_owner_update (by rw [hq]; split <;> simp)
  case not_aborted => exact h.not_aborted_update (by rw [hq]; split <;> simp)
  case wakeup =>
    rintro ⟨u, hu⟩
    by_cases hz : c &&& ~~~kHeldMask ≠ 0
    · exact .inr (.inl ⟨t, show Function.update s.pc t q t = .unlockWake by
        rw [Function.update_self, hq, if_pos hz]⟩)
    · -- the word counts no contender, so no thread sleeps
      have hnone : count (Function.update s.pc t q) Pc.contends = 0 := by
        rw [hcont]
        have : (c &&& ~~~kHeldMask).toNat = 0 := by rw [not_not.1 hz]; rfl
        omega
      exact absurd (count_eq_zero.1 hnone u) (by simp [Pc.contends_of_sleeping hu])

/-- The waker's `FUTEX_WAKE` wakes a sleeper, which goes back to its load. -/
theorem wake {u : τ} (h : Inv s) (hpc : s.pc t = .unlockWake) (hu : (s.pc u).sleeping) :
    Inv ((s.setPc u .lockReload).setPc t .idle) := by
  obtain ⟨c, hc⟩ : ∃ c, s.pc u = .lockSleeping c := by
    cases hpu : s.pc u <;> simp_all [Pc.sleeping]
  have hut : u ≠ t := fun hut => by simp [hut, hpc] at hc
  have h₁ : Inv (s.setPc u .lockReload) := h.move (hc ▸ .lockWoken c)
  have hpc₁ : (s.setPc u .lockReload).pc t = .unlockWake := by simp [Ne.symm hut, hpc]
  exact h₁.move (hpc₁ ▸ .wakeDone ⟨u, by simp [Pc.locking]⟩)

/-- Every step keeps the invariant. -/
theorem step (h : Inv s) (hτ : Fintype.card τ < 2 ^ 30) (hs : Step s s') : Inv s' := by
  cases hs with
  | move t q hm => exact h.move hm
  | acquire t c hpc hc => exact h.acquire hpc hc
  | increment t c hpc => exact h.increment hτ hpc
  | decrement t hpc => exact h.decrement hpc
  | storeOwner t hpc howner => exact h.storeOwner hpc howner
  | clearOwner t c hpc => exact h.clearOwner hpc
  | release t c hpc hc => exact h.release hpc hc
  | wake t u hpc hu => exact h.wake hpc hu

end Inv

/-- The invariant holds after every run from `Mutex()`. -/
theorem run_inv (hτ : Fintype.card τ < 2 ^ 30) {actions : List (Action τ)}
    (hrun : run next init actions = some s) : Inv s :=
  run_invariant (fun _ _ _ hs ha => hs.step hτ (next_step ha)) inv_init hrun

/-! ## Over every interleaving -/

/-- Over every interleaving from `Mutex()`: at most one thread owns the mutex, the held bit of
`state_and_contenders_` is set exactly when one does, the bits above count the contenders, the
holder is `exclusive_owner_`, and no `LOG(FATAL)` or `DCHECK` of the lock and unlock paths
fires. -/
theorem run_mutual_exclusion (hτ : Fintype.card τ < 2 ^ 30) {actions : List (Action τ)}
    (hrun : run next init actions = some s) :
    (∀ t u, (s.pc t).owns → (s.pc u).owns → t = u) ∧
    (s.stateAndContenders &&& kHeldMask ≠ 0 ↔ ∃ t, (s.pc t).owns) ∧
    (s.stateAndContenders >>> kContenderShift).toNat = count s.pc Pc.contends ∧
    (∀ t, s.pc t = .holding → s.exclusiveOwner = some t) ∧
    (∀ t, s.pc t ≠ .aborted) := by
  have h := run_inv hτ hrun
  refine ⟨fun _ _ => h.eq_of_owns, ?_, ?_, h.holding_owner, h.not_aborted⟩
  · rw [Ne, h.held_eq_zero_iff, ← count_pos_iff]
    omega
  · have hword := h.word_eq
    have hle := h.owners_le_one
    rw [BitVec.toNat_ushiftRight, kContenderShift, Nat.shiftRight_eq_div_pow]
    omega

/-- Thread `0` takes the mutex; thread `1` finds it held, gives up spinning and sleeps; thread
`0` unlocks, sees the contender and wakes it; thread `1` takes the mutex. -/
def handoff : List (Action (Fin 2)) :=
  [.exclusiveLock 0, .step 0, .step 0, .step 0,
   .exclusiveLock 1, .step 1, .fail 1, .step 1, .step 1,
   .exclusiveUnlock 0, .step 0, .step 0, .step 0, .wake 0 (some 1),
   .step 1, .step 1, .step 1, .step 1, .step 1]

theorem handoff_mutual_exclusion :
    ∃ s, run next init handoff = some s ∧ s.pc 1 = .holding ∧ s.exclusiveOwner = some 1 := by
  refine ⟨_, rfl, rfl, ?_⟩
  exact (run_mutual_exclusion (by decide) (show run next init handoff = some _ from rfl)).2.2.2.1
    1 rfl

/-- A thread asleep in the futex is never stranded: the owner can unlock or take its next step,
a thread at `ExclusiveUnlock`'s `FUTEX_WAKE` can wake every sleeper, or a thread awake in
`ExclusiveLock` can take its next step. -/
theorem run_sleeper_has_waker (hτ : Fintype.card τ < 2 ^ 30) {actions : List (Action τ)}
    (hrun : run next init actions = some s) (hsleep : ∃ t, (s.pc t).sleeping) :
    ∃ t, ((s.pc t).owns ∧
        (next s (if s.pc t = .holding then .exclusiveUnlock t else .step t)).isSome) ∨
      (s.pc t = .unlockWake ∧ ∀ v, (s.pc v).sleeping → (next s (.wake t (some v))).isSome) ∨
      ((s.pc t).locking ∧ (next s (.step t)).isSome) := by
  have h := run_inv hτ hrun
  rcases h.wakeup hsleep with hone | ⟨t, ht⟩ | ⟨t, ht⟩
  · obtain ⟨t, ht⟩ := count_pos_iff.1 (show 0 < count s.pc Pc.owns by omega)
    refine ⟨t, .inl ⟨ht, ?_⟩⟩
    by_cases hhold : s.pc t = .holding
    · simp [next, hhold]
    · rw [if_neg hhold]
      exact stepThread_isSome (.inr ⟨ht, hhold⟩)
  · exact ⟨t, .inr (.inl ⟨ht, fun v hv => by simp [next, ht, hv]⟩)⟩
  · exact ⟨t, .inr (.inr ⟨ht, stepThread_isSome (.inl ht)⟩)⟩

theorem handoff_sleeper_has_waker :
    ∃ s, run next init (handoff.take 9) = some s ∧ (s.pc 1).sleeping ∧
      ∃ t, ((s.pc t).owns ∧
          (next s (if s.pc t = .holding then .exclusiveUnlock t else .step t)).isSome) ∨
        (s.pc t = .unlockWake ∧ ∀ v, (s.pc v).sleeping → (next s (.wake t (some v))).isSome) ∨
        ((s.pc t).locking ∧ (next s (.step t)).isSome) := by
  refine ⟨_, rfl, rfl, ?_⟩
  exact run_sleeper_has_waker (by decide) (show run next init (handoff.take 9) = some _ from rfl)
    ⟨1, rfl⟩

end Mutex

end Art
