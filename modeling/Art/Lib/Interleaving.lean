import Mathlib
import Art.Lib.Transition

/-!
# Interleavings of threads over a shared state

Threads with local states `τ` share a state `σ`.  A step of the system is an atomic step of one
thread, `step : σ → τ → Option (σ × τ)`, which is `none` once the thread has finished.

An assertion made of a global part `G` and a part `L` for each thread holds in every configuration
an interleaving reaches, when each step keeps the global part and its own thread's part and keeps
the part of every other thread: the interference freedom of Owicki and Gries (`Inv.reachable`).
What a step leaves of a thread's own state, such as the arguments of its call, stays in every
configuration too (`map_threads_of_reachable`).

A measure into a well-founded order that every step lowers means that no interleaving runs
forever (`terminates_of_measure`), and then every configuration leads to one where no thread can
step (`exists_terminal`).  A schedule, the list of the threads that step in turn, is a run of
`stepAt`; a run that is taken reaches its end (`reachable_of_run`).
-/

namespace Interleaving

variable {σ τ : Type}

/-- The shared state and the threads' local states. -/
structure Config (σ τ : Type*) where
  shared : σ
  threads : List τ

variable (step : σ → τ → Option (σ × τ))

/-- One atomic step of one thread. -/
inductive Step : Config σ τ → Config σ τ → Prop
  | thread (c : Config σ τ) (i : Nat) (hi : i < c.threads.length) (s : σ) (t : τ)
      (h : step c.shared c.threads[i] = some (s, t)) : Step c ⟨s, c.threads.set i t⟩

/-- The configurations some interleaving of steps leads to. -/
def Reachable : Config σ τ → Config σ τ → Prop := Relation.ReflTransGen (Step step)

/-- The global part of an assertion and the part of every thread. -/
structure Inv (G : σ → Prop) (L : σ → τ → Prop) (c : Config σ τ) : Prop where
  global : G c.shared
  thread : ∀ t ∈ c.threads, L c.shared t

section Rule

variable {step} {G : σ → Prop} {L : σ → τ → Prop}
  (hstep : ∀ s t s' t', G s → L s t → step s t = some (s', t') → G s' ∧ L s' t')
  (hstable : ∀ s t u s' u', G s → L s t → L s u → step s u = some (s', u') → L s' t)
include hstep hstable

theorem Inv.of_step {c c' : Config σ τ} (hc : Inv G L c) (h : Step step c c') : Inv G L c' := by
  cases h with
  | thread i hi s t h =>
    have hL := hc.thread _ (List.getElem_mem hi)
    obtain ⟨hG', hL'⟩ := hstep _ _ _ _ hc.global hL h
    refine ⟨hG', fun u hu => ?_⟩
    -- the stepping thread keeps its part by its step, every other by interference freedom
    rcases List.mem_or_eq_of_mem_set hu with hu | rfl
    · exact hstable _ _ _ _ _ hc.global (hc.thread u hu) hL h
    · exact hL'

theorem Inv.reachable {c c' : Config σ τ} (hc : Inv G L c) (h : Reachable step c c') :
    Inv G L c' := by
  induction h with
  | refl => exact hc
  | tail _ hlast ih => exact ih.of_step hstep hstable hlast

end Rule

/-- A part of the threads' states that no step changes is the same in every reachable
configuration. -/
theorem map_threads_of_reachable {β : Type*} (f : τ → β)
    (hf : ∀ s t s' t', step s t = some (s', t') → f t' = f t) {c c' : Config σ τ}
    (h : Reachable step c c') : c'.threads.map f = c.threads.map f := by
  induction h with
  | refl => rfl
  | tail _ hlast ih =>
    cases hlast with
    | thread i hi s t h =>
      -- the stepping thread's part is set back to what it was
      rw [← ih, List.map_set, hf _ _ _ _ h]
      apply List.ext_getElem (by simp)
      intro j _ _
      by_cases hj : i = j
      · subst hj
        simp
      · simp [hj]

section Progress

/-- Every interleaving from `c` is finite. -/
def Terminates (c : Config σ τ) : Prop := Acc (fun c₂ c₁ => Step step c₁ c₂) c

/-- No thread can step. -/
def Terminal (c : Config σ τ) : Prop := ∀ t ∈ c.threads, step c.shared t = none

/-- The step of the thread at `i`, where it has one. -/
def stepAt (c : Config σ τ) (i : Nat) : Option (Config σ τ) :=
  if hi : i < c.threads.length then
    (step c.shared c.threads[i]).map fun st => ⟨st.1, c.threads.set i st.2⟩
  else none

variable {step}

theorem terminal_of_forall_not_step {c : Config σ τ} (h : ∀ c', ¬Step step c c') :
    Terminal step c := by
  intro t ht
  obtain ⟨i, hi, rfl⟩ := List.getElem_of_mem ht
  cases hs : step c.shared c.threads[i] with
  | none => rfl
  | some st => exact absurd (Step.thread c i hi st.1 st.2 hs) (h _)

/-- No interleaving runs forever when every step lowers a measure into a well-founded order. -/
theorem terminates_of_measure {α : Type*} {r : α → α → Prop} (hr : WellFounded r)
    (μ : Config σ τ → α) (hμ : ∀ c c', Step step c c' → r (μ c') (μ c)) (c : Config σ τ) :
    Terminates step c :=
  (Subrelation.wf (fun {c₂ c₁} h => hμ c₁ c₂ h) (InvImage.wf μ hr)).apply c

/-- From where every interleaving is finite, one reaches a configuration where no thread can
step. -/
theorem exists_terminal {c : Config σ τ} (h : Terminates step c) :
    ∃ c', Reachable step c c' ∧ Terminal step c' := by
  induction h with
  | intro c _ ih =>
    by_cases hs : ∃ c₁, Step step c c₁
    · obtain ⟨c₁, hc₁⟩ := hs
      obtain ⟨c', hr, ht⟩ := ih c₁ hc₁
      exact ⟨c', .head hc₁ hr, ht⟩
    · exact ⟨c, .refl, terminal_of_forall_not_step (not_exists.1 hs)⟩

theorem step_of_stepAt {c c' : Config σ τ} {i : Nat} (h : stepAt step c i = some c') :
    Step step c c' := by
  unfold stepAt at h
  split_ifs at h with hi
  obtain ⟨st, hs, rfl⟩ := Option.map_eq_some_iff.1 h
  exact .thread c i hi st.1 st.2 hs

/-- A schedule of threads taken in turn leads to a reachable configuration. -/
theorem reachable_of_run {c c' : Config σ τ} {schedule : List Nat}
    (h : Transition.run (stepAt step) c schedule = some c') : Reachable step c c' :=
  Transition.run_invariant (fun _ _ _ hs hi => hs.tail (step_of_stepAt hi))
    Relation.ReflTransGen.refl h

end Progress

end Interleaving
