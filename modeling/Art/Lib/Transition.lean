import Mathlib

/-!
# Runs of a state machine

A state machine takes a state and an action to the next state, `next s a`, or refuses the action
(`none`).  `run` follows a list of actions while each one is taken.  An invariant that holds at
the start of a run and is kept by every action taken holds at its end (`run_invariant`).
`Reaches next allowed s s'` says that a run of actions that `allowed` admits leads from `s` to
`s'`: a schedule that exists, for results that some run can make progress.

Where the state gives each thread of a finite type a program counter, `count` is the number of
threads at the counters a predicate picks, and `count_update` says how one thread's move changes
it.
-/

namespace Transition

variable {σ α : Type} (next : σ → α → Option σ)

/-- The state a list of actions leads to from `s`, if each action is taken. -/
def run (s : σ) (actions : List α) : Option σ := actions.foldlM next s

variable {next}

@[simp]
theorem run_nil (s : σ) : run next s [] = some s := rfl

theorem run_cons (s : σ) (a : α) (actions : List α) :
    run next s (a :: actions) = (next s a).bind fun s' => run next s' actions := rfl

theorem run_append (s : σ) (as bs : List α) :
    run next s (as ++ bs) = (run next s as).bind fun s' => run next s' bs := by
  simp [run, List.foldlM_append]

/-- An invariant that every taken action keeps holds at the end of every run. -/
theorem run_invariant {I : σ → Prop} (hstep : ∀ s a s', I s → next s a = some s' → I s') :
    ∀ {actions : List α} {s s' : σ}, I s → run next s actions = some s' → I s'
  | [], s, s', hs, h => by
    rw [run_nil, Option.some_inj] at h
    exact h ▸ hs
  | a :: actions, s, s', hs, h => by
    rw [run_cons] at h
    obtain ⟨s₁, h₁, hrest⟩ := Option.bind_eq_some_iff.1 h
    exact run_invariant hstep (hstep s a s₁ hs h₁) hrest

section Reaches

variable (next)

/-- `s'` follows from `s` by a run of actions that `allowed` admits. -/
def Reaches (allowed : α → Prop) (s s' : σ) : Prop :=
  ∃ actions : List α, (∀ a ∈ actions, allowed a) ∧ run next s actions = some s'

variable {next} {allowed : α → Prop}

theorem Reaches.refl (s : σ) : Reaches next allowed s s := ⟨[], by simp, rfl⟩

theorem Reaches.head {s s₁ s' : σ} {a : α} (ha : allowed a) (h : next s a = some s₁)
    (hr : Reaches next allowed s₁ s') : Reaches next allowed s s' := by
  obtain ⟨actions, hall, hrun⟩ := hr
  refine ⟨a :: actions, ?_, ?_⟩
  · simpa [ha] using hall
  · rw [run_cons, h]
    exact hrun

theorem Reaches.single {s s' : σ} {a : α} (ha : allowed a) (h : next s a = some s') :
    Reaches next allowed s s' :=
  .head ha h (.refl s')

theorem Reaches.trans {s s₁ s' : σ} (h₁ : Reaches next allowed s s₁)
    (h₂ : Reaches next allowed s₁ s') : Reaches next allowed s s' := by
  obtain ⟨as, has, hrun₁⟩ := h₁
  obtain ⟨bs, hbs, hrun₂⟩ := h₂
  refine ⟨as ++ bs, fun a ha => ?_, ?_⟩
  · rcases List.mem_append.1 ha with ha | ha
    · exact has a ha
    · exact hbs a ha
  · rw [run_append, hrun₁]
    exact hrun₂

/-- An invariant that every taken action keeps holds wherever a run reaches. -/
theorem Reaches.invariant {I : σ → Prop}
    (hstep : ∀ s a s', I s → next s a = some s' → I s') {s s' : σ} (hs : I s)
    (h : Reaches next allowed s s') : I s' := by
  obtain ⟨_, -, hrun⟩ := h
  exact run_invariant hstep hs hrun

end Reaches

section Count

variable {τ β : Type} [Fintype τ]

/-- The number of threads whose program counter `p` picks. -/
def count (pc : τ → β) (p : β → Bool) : Nat := (Finset.univ.filter fun t => p (pc t)).card

/-- A move of thread `t` from `pc t` to `q` takes it out of the count and back in. -/
theorem count_update [DecidableEq τ] (pc : τ → β) (p : β → Bool) (t : τ) (q : β) :
    count (Function.update pc t q) p + (if p (pc t) then 1 else 0) =
      count pc p + (if p q then 1 else 0) := by
  unfold count
  rw [Finset.card_filter, Finset.card_filter, ← Finset.add_sum_erase _ _ (Finset.mem_univ t),
    ← Finset.add_sum_erase _ _ (Finset.mem_univ t)]
  -- the other threads' terms are the same on both sides
  have hrest : ∑ u ∈ Finset.univ.erase t, (if p (Function.update pc t q u) then 1 else 0) =
      ∑ u ∈ Finset.univ.erase t, (if p (pc u) then 1 else 0) :=
    Finset.sum_congr rfl fun u hu => by rw [Function.update_of_ne (Finset.ne_of_mem_erase hu)]
  rw [hrest, Function.update_self]
  omega

theorem count_update_of_eq [DecidableEq τ] {pc : τ → β} {p : β → Bool} {t : τ} {q : β}
    (h : p (pc t) = p q) : count (Function.update pc t q) p = count pc p := by
  have := count_update pc p t q
  rw [h] at this
  omega

/-- A thread that moves into the counted program counters adds one. -/
theorem count_update_enter [DecidableEq τ] {pc : τ → β} {p : β → Bool} {t : τ} {q : β}
    (hp : p (pc t) = false) (hq : p q = true) :
    count (Function.update pc t q) p = count pc p + 1 := by
  have := count_update pc p t q
  rw [hp, hq] at this
  simpa using this

/-- A thread that moves out of the counted program counters takes one away. -/
theorem count_update_leave [DecidableEq τ] {pc : τ → β} {p : β → Bool} {t : τ} {q : β}
    (hp : p (pc t) = true) (hq : p q = false) :
    count (Function.update pc t q) p + 1 = count pc p := by
  have := count_update pc p t q
  rw [hp, hq] at this
  simpa using this

/-- Moving every thread by a map the predicate does not see keeps the count. -/
theorem count_comp {pc : τ → β} {p : β → Bool} {f : β → β} (hf : ∀ b, p (f b) = p b) :
    count (fun t => f (pc t)) p = count pc p := by
  simp only [count, hf]

theorem count_le (pc : τ → β) (p : β → Bool) : count pc p ≤ Fintype.card τ :=
  Finset.card_filter_le _ _

theorem count_pos_iff {pc : τ → β} {p : β → Bool} : 0 < count pc p ↔ ∃ t, p (pc t) := by
  simp [count, Finset.card_pos, Finset.filter_nonempty_iff]

theorem count_eq_zero {pc : τ → β} {p : β → Bool} :
    count pc p = 0 ↔ ∀ t, p (pc t) = false := by
  simp [count, Finset.filter_eq_empty_iff]

/-- With at most one thread counted, two counted threads are the same. -/
theorem eq_of_count_le_one {pc : τ → β} {p : β → Bool} (h : count pc p ≤ 1) {t u : τ}
    (ht : p (pc t)) (hu : p (pc u)) : t = u :=
  Finset.card_le_one.1 h t (by simpa using ht) u (by simpa using hu)

end Count

end Transition
