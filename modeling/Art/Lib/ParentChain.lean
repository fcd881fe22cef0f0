import Mathlib

/-!
# Parent chains and their deepest common ancestor

A node's parent, where it has one, is one level less deep; a node with a positive depth has a
parent (`Graded`).  Ancestry is the reflexive-transitive closure of the parent link.

`climb n c` follows `n` parent links, and `meet n s t` walks `s` and `t` up in lockstep until they
meet, for at most `n` rounds.  `commonAncestor` climbs the deeper of two nodes to the other's depth
and then meets them: when the two have a common ancestor at all, this finds their deepest one, an
ancestor of both of which every common ancestor is an ancestor (`commonAncestor_spec`).
-/

namespace ParentChain

variable {κ : Type*} (parent : κ → Option κ)

/-- `a` is `c` or one of its ancestors. -/
def AncestorOrSelf (a c : κ) : Prop :=
  Relation.ReflTransGen (fun x y => parent x = some y) c a

/-- Follow `n` parent links from `c`, `none` if the chain ends first. -/
def climb : Nat → κ → Option κ
  | 0, c => some c
  | n + 1, c => (parent c).bind (climb n)

/-- Walk `s` and `t` up together until they are the same node, for at most `n` rounds. -/
def meet [DecidableEq κ] : Nat → κ → κ → Option κ
  | n, s, t =>
    if s = t then some s
    else
      match n with
      | 0 => none
      | n + 1 => do
        let s' ← parent s
        let t' ← parent t
        meet n s' t'

/-- Bring the deeper of `s` and `t` up to the other's depth, then walk both up until they meet. -/
def commonAncestor [DecidableEq κ] (depth : κ → Nat) (s t : κ) : Option κ := do
  let s' ← climb parent (depth s - depth t) s
  let t' ← climb parent (depth t - depth s) t
  meet parent (min (depth s) (depth t)) s' t'

/-- A parent is one level less deep, and every node below depth `0` has a parent. -/
structure Graded (depth : κ → Nat) : Prop where
  depth_parent : ∀ c p, parent c = some p → depth c = depth p + 1
  exists_parent : ∀ c, 0 < depth c → ∃ p, parent c = some p

variable {parent}

namespace AncestorOrSelf

theorem refl (c : κ) : AncestorOrSelf parent c c := Relation.ReflTransGen.refl

theorem head {a c p : κ} (hp : parent c = some p) (h : AncestorOrSelf parent a p) :
    AncestorOrSelf parent a c :=
  Relation.ReflTransGen.head hp h

theorem trans {a b c : κ} (hab : AncestorOrSelf parent a b) (hbc : AncestorOrSelf parent b c) :
    AncestorOrSelf parent a c :=
  Relation.ReflTransGen.trans hbc hab

/-- A proper ancestor of `c` is an ancestor of its parent. -/
theorem of_ne {a c : κ} (h : AncestorOrSelf parent a c) (hne : a ≠ c) :
    ∃ p, parent c = some p ∧ AncestorOrSelf parent a p := by
  rcases Relation.ReflTransGen.cases_head h with rfl | ⟨p, hp, hpa⟩
  · exact absurd rfl hne
  · exact ⟨p, hp, hpa⟩

/-- A proper ancestor is the parent of some node. -/
theorem eq_parent_of_ne {a c : κ} (h : AncestorOrSelf parent a c) (hne : a ≠ c) :
    ∃ x, parent x = some a := by
  rcases Relation.ReflTransGen.cases_tail h with rfl | ⟨x, -, hx⟩
  · exact absurd rfl hne
  · exact ⟨x, hx⟩

end AncestorOrSelf

@[simp] theorem climb_zero (c : κ) : climb parent 0 c = some c := rfl

theorem climb_succ (n : Nat) (c : κ) : climb parent (n + 1) c = (parent c).bind (climb parent n) :=
  rfl

theorem ancestorOrSelf_of_climb {n : Nat} {a c : κ} (h : climb parent n c = some a) :
    AncestorOrSelf parent a c := by
  induction n generalizing c with
  | zero => cases h; exact AncestorOrSelf.refl _
  | succ n ih =>
    rw [climb_succ, Option.bind_eq_some_iff] at h
    obtain ⟨p, hp, hpa⟩ := h
    exact AncestorOrSelf.head hp (ih hpa)

section Graded

variable {depth : κ → Nat} (hg : Graded parent depth)
include hg

theorem AncestorOrSelf.depth_le {a c : κ} (h : AncestorOrSelf parent a c) :
    depth a ≤ depth c := by
  induction h using Relation.ReflTransGen.head_induction_on with
  | refl => exact Nat.le_refl _
  | head hp _ ih =>
    have := hg.depth_parent _ _ hp
    omega

theorem AncestorOrSelf.eq_of_depth_le {a c : κ} (h : AncestorOrSelf parent a c)
    (hd : depth c ≤ depth a) : a = c := by
  rcases Relation.ReflTransGen.cases_head h with rfl | ⟨p, hp, hpa⟩
  · rfl
  · have := hg.depth_parent _ _ hp
    have := AncestorOrSelf.depth_le hg hpa
    omega

/-- Ancestry is climbing some number of links. -/
theorem ancestorOrSelf_iff_climb {a c : κ} :
    AncestorOrSelf parent a c ↔ ∃ n < depth c + 1, climb parent n c = some a := by
  constructor
  · intro h
    induction h using Relation.ReflTransGen.head_induction_on with
    | refl => exact ⟨0, Nat.succ_pos _, rfl⟩
    | head hp _ ih =>
      obtain ⟨n, hn, hna⟩ := ih
      have := hg.depth_parent _ _ hp
      exact ⟨n + 1, by omega, by rw [climb_succ, hp]; exact hna⟩
  · rintro ⟨n, -, hn⟩
    exact ancestorOrSelf_of_climb hn

/-- Climbing `n ≤ depth c` links succeeds, and it keeps every ancestor of `c` no deeper than
where it lands. -/
theorem climb_spec {n : Nat} {c : κ} (hn : n ≤ depth c) :
    ∃ c', climb parent n c = some c' ∧ AncestorOrSelf parent c' c ∧ depth c' + n = depth c ∧
      ∀ d, AncestorOrSelf parent d c → depth d + n ≤ depth c → AncestorOrSelf parent d c' := by
  induction n generalizing c with
  | zero =>
    exact ⟨c, rfl, AncestorOrSelf.refl c, rfl, fun _ hd _ => hd⟩
  | succ n ih =>
    obtain ⟨p, hp⟩ := hg.exists_parent c (by omega)
    have hdp := hg.depth_parent _ _ hp
    obtain ⟨c', hc', hanc, hdepth, hkeep⟩ := ih (c := p) (by omega)
    refine ⟨c', by rw [climb_succ, hp]; exact hc', AncestorOrSelf.head hp hanc, by omega, ?_⟩
    intro d hd hdd
    -- `d` is shallower than `c`, so it is an ancestor of `c`'s parent
    have hne : d ≠ c := by
      rintro rfl
      omega
    obtain ⟨p', hp', hdp'⟩ := hd.of_ne hne
    rw [hp] at hp'
    cases hp'
    exact hkeep d hdp' (by omega)

/-- Two nodes of one depth with a common ancestor meet within `n ≥ depth s` rounds, at their
deepest common ancestor. -/
theorem meet_spec [DecidableEq κ] {n : Nat} {s t a : κ} (hst : depth s = depth t)
    (hn : depth s ≤ n) (has : AncestorOrSelf parent a s) (hat : AncestorOrSelf parent a t) :
    ∃ c, meet parent n s t = some c ∧ AncestorOrSelf parent c s ∧ AncestorOrSelf parent c t ∧
      ∀ d, AncestorOrSelf parent d s → AncestorOrSelf parent d t → AncestorOrSelf parent d c := by
  induction n generalizing s t with
  | zero =>
    -- at depth `0` both nodes are their own common ancestor
    have hs : a = s := AncestorOrSelf.eq_of_depth_le hg has (by omega)
    have ht : a = t := AncestorOrSelf.eq_of_depth_le hg hat (by omega)
    subst hs ht
    exact ⟨a, by simp [meet], AncestorOrSelf.refl a, AncestorOrSelf.refl a, fun _ hd _ => hd⟩
  | succ n ih =>
    by_cases heq : s = t
    · subst heq
      exact ⟨s, by simp [meet], AncestorOrSelf.refl s, AncestorOrSelf.refl s, fun _ hd _ => hd⟩
    -- a common ancestor of two distinct nodes of one depth is a proper ancestor of both
    have hne : ∀ d, AncestorOrSelf parent d s → AncestorOrSelf parent d t → d ≠ s ∧ d ≠ t := by
      intro d hds hdt
      constructor
      · rintro rfl
        exact heq (AncestorOrSelf.eq_of_depth_le hg hdt (Nat.le_of_eq hst.symm))
      · rintro rfl
        exact heq (AncestorOrSelf.eq_of_depth_le hg hds (Nat.le_of_eq hst)).symm
    obtain ⟨hnes, hnet⟩ := hne a has hat
    obtain ⟨s', hs', has'⟩ := has.of_ne hnes
    obtain ⟨t', ht', hat'⟩ := hat.of_ne hnet
    have hds := hg.depth_parent _ _ hs'
    have hdt := hg.depth_parent _ _ ht'
    obtain ⟨c, hc, hcs, hct, hlow⟩ := ih (s := s') (t := t') (by omega) (by omega) has' hat'
    refine ⟨c, ?_, AncestorOrSelf.head hs' hcs, AncestorOrSelf.head ht' hct, ?_⟩
    · simp only [meet, if_neg heq, hs', ht', Option.bind_eq_bind, Option.bind_some]
      exact hc
    · intro d hds hdt
      obtain ⟨hnes, hnet⟩ := hne d hds hdt
      obtain ⟨s'', hs'', hds'⟩ := hds.of_ne hnes
      obtain ⟨t'', ht'', hdt'⟩ := hdt.of_ne hnet
      rw [hs'] at hs''
      rw [ht'] at ht''
      cases hs''
      cases ht''
      exact hlow d hds' hdt'

/-- When `s` and `t` have a common ancestor, `commonAncestor` finds their deepest one. -/
theorem commonAncestor_spec [DecidableEq κ] {s t a : κ} (has : AncestorOrSelf parent a s)
    (hat : AncestorOrSelf parent a t) :
    ∃ c, commonAncestor parent depth s t = some c ∧ AncestorOrSelf parent c s ∧
      AncestorOrSelf parent c t ∧
      ∀ d, AncestorOrSelf parent d s → AncestorOrSelf parent d t → AncestorOrSelf parent d c := by
  obtain ⟨s', hs', hs's, hds', hkeeps⟩ := climb_spec hg (n := depth s - depth t) (c := s) (by omega)
  obtain ⟨t', ht', ht't, hdt', hkeept⟩ := climb_spec hg (n := depth t - depth s) (c := t) (by omega)
  -- every common ancestor is no deeper than the shallower of the two, so the climbs keep it
  have hkeep : ∀ d, AncestorOrSelf parent d s → AncestorOrSelf parent d t →
      AncestorOrSelf parent d s' ∧ AncestorOrSelf parent d t' := by
    intro d hds hdt
    have := AncestorOrSelf.depth_le hg hds
    have := AncestorOrSelf.depth_le hg hdt
    exact ⟨hkeeps d hds (by omega), hkeept d hdt (by omega)⟩
  obtain ⟨has', hat'⟩ := hkeep a has hat
  obtain ⟨c, hc, hcs, hct, hlow⟩ :=
    meet_spec hg (n := min (depth s) (depth t)) (by omega) (by omega) has' hat'
  refine ⟨c, ?_, hcs.trans hs's, hct.trans ht't, fun d hds hdt => ?_⟩
  · simp only [commonAncestor, hs', ht', Option.bind_eq_bind, Option.bind_some]
    exact hc
  · obtain ⟨hds', hdt'⟩ := hkeep d hds hdt
    exact hlow d hds' hdt'

end Graded

end ParentChain
