import Mathlib

/-!
# Path labels on a rooted tree

A rooted tree is given by each node's parent and depth, the root being the one node without a
parent.  A labelling gives each node a string of characters, of which the first `cap` count.  It
is a *path labelling* for a set of labelled nodes and a subset of assigned ones when a labelled
node repeats its parent's label below the parent's depth, an assigned node ends its label with a
nonzero character that no assigned sibling shares, and only assigned nodes put a nonzero
character at their parent's depth.

Then an assigned node is an ancestor of a labelled one exactly when the latter's label, cut to its
depth and to `cap`, starts with the former's (`ancestorOrSelf_iff_cut_eq`), and two assigned nodes
with the same cut label are the same node (`eq_of_cut_eq`).
-/

namespace PathLabel

variable {κ : Type*}

structure RootedTree (κ : Type*) where
  parent : κ → Option κ
  depth : κ → Nat
  root : κ
  parent_eq_none_iff : ∀ c, parent c = none ↔ c = root
  depth_root : depth root = 0
  depth_parent : ∀ c p, parent c = some p → depth c = depth p + 1

namespace RootedTree

variable (T : RootedTree κ)

/-- `a` is `c` or one of its ancestors. -/
def AncestorOrSelf (a c : κ) : Prop :=
  Relation.ReflTransGen (fun x y => T.parent x = some y) c a

variable {T}

theorem eq_root_of_depth_eq_zero {c : κ} (h : T.depth c = 0) : c = T.root := by
  rw [← T.parent_eq_none_iff]
  cases hp : T.parent c with
  | none => rfl
  | some p =>
    have := T.depth_parent c p hp
    omega

theorem exists_parent_of_depth_pos {c : κ} (h : 0 < T.depth c) : ∃ p, T.parent c = some p := by
  cases hp : T.parent c with
  | none =>
    rw [T.parent_eq_none_iff] at hp
    rw [hp, T.depth_root] at h
    omega
  | some p => exact ⟨p, rfl⟩

theorem AncestorOrSelf.refl (c : κ) : T.AncestorOrSelf c c := Relation.ReflTransGen.refl

theorem AncestorOrSelf.parent {a c p : κ} (hp : T.parent c = some p)
    (h : T.AncestorOrSelf a p) : T.AncestorOrSelf a c :=
  Relation.ReflTransGen.head hp h

theorem AncestorOrSelf.depth_le {a c : κ} (h : T.AncestorOrSelf a c) : T.depth a ≤ T.depth c := by
  induction h using Relation.ReflTransGen.head_induction_on with
  | refl => exact Nat.le_refl _
  | head hp _ ih =>
    have := T.depth_parent _ _ hp
    omega

theorem AncestorOrSelf.eq_of_depth_eq {a c : κ} (h : T.AncestorOrSelf a c)
    (hd : T.depth a = T.depth c) : a = c := by
  rcases Relation.ReflTransGen.cases_head h with rfl | ⟨p, hp, hpa⟩
  · rfl
  · have := T.depth_parent _ _ hp
    have := AncestorOrSelf.depth_le hpa
    omega

/-- Every node has an ancestor at each depth up to its own. -/
theorem exists_ancestorOrSelf_of_le {n : Nat} :
    ∀ {c : κ}, n ≤ T.depth c → ∃ a, T.AncestorOrSelf a c ∧ T.depth a = n := by
  intro c
  induction hd : T.depth c generalizing c with
  | zero => exact fun hn => ⟨c, AncestorOrSelf.refl c, by omega⟩
  | succ d ih =>
    intro hn
    rcases Nat.eq_or_lt_of_le hn with rfl | hlt
    · exact ⟨c, AncestorOrSelf.refl c, hd⟩
    · obtain ⟨p, hp⟩ := exists_parent_of_depth_pos (show 0 < T.depth c by omega)
      have hdp : T.depth p = d := by
        have := T.depth_parent c p hp
        omega
      obtain ⟨a, ha, han⟩ := ih hdp (by omega)
      exact ⟨a, ha.parent hp, han⟩

end RootedTree

open PathLabel.RootedTree

section Labelling

variable (T : RootedTree κ) (cap : Nat) (labelled assigned : κ → Prop) (label : κ → Nat → Nat)

structure PathLabelling : Prop where
  labelled_parent : ∀ c p, T.parent c = some p → labelled c → labelled p
  assigned_parent : ∀ c p, T.parent c = some p → assigned c → assigned p
  labelled_of_assigned : ∀ c, assigned c → labelled c
  depth_le_of_assigned : ∀ c, assigned c → T.depth c ≤ cap
  label_parent : ∀ c p, T.parent c = some p → labelled c → ∀ k < T.depth p, label c k = label p k
  label_ne_zero : ∀ c p, T.parent c = some p → assigned c → label c (T.depth p) ≠ 0
  assigned_of_label_ne_zero : ∀ c p, T.parent c = some p → labelled c → T.depth p < cap →
    label c (T.depth p) ≠ 0 → assigned c
  label_injective : ∀ c c' p, T.parent c = some p → T.parent c' = some p → assigned c →
    assigned c' → label c (T.depth p) = label c' (T.depth p) → c = c'

/-- A label cut to the node's depth and to `cap` characters. -/
def cut (c : κ) (k : Nat) : Nat := if k < min (T.depth c) cap then label c k else 0

variable {T cap labelled assigned label}

/-- A labelled node repeats the label of each of its ancestors, which are labelled too. -/
theorem label_of_ancestorOrSelf (h : PathLabelling T cap labelled assigned label) {a c : κ}
    (hac : T.AncestorOrSelf a c) (hc : labelled c) :
    labelled a ∧ ∀ k < T.depth a, label c k = label a k := by
  induction hac using Relation.ReflTransGen.head_induction_on with
  | refl => exact ⟨hc, fun _ _ => rfl⟩
  | @head c p hp hpa ih =>
    obtain ⟨ha, hpk⟩ := ih (h.labelled_parent c p hp hc)
    have hle := AncestorOrSelf.depth_le hpa
    exact ⟨ha, fun k hk => (h.label_parent c p hp hc k (by omega)).trans (hpk k hk)⟩

/-- A labelled node whose label agrees with an assigned node's at the same depth is that node.
By induction on the depth: the parents agree one level up, and then the siblings' last
characters are equal and nonzero, so both are assigned and the same. -/
theorem eq_of_label_eq (h : PathLabelling T cap labelled assigned label) :
    ∀ (n : Nat) {a t : κ}, T.depth t = n → T.depth a = n → labelled a → assigned t →
      (∀ k < n, label a k = label t k) → a = t
  | 0, a, t, ht, ha, _, _, _ => by
    rw [eq_root_of_depth_eq_zero ht, eq_root_of_depth_eq_zero ha]
  | n + 1, a, t, ht, ha, hla, hat, hk => by
    obtain ⟨pa, hpa⟩ := exists_parent_of_depth_pos (show 0 < T.depth a by omega)
    obtain ⟨pt, hpt⟩ := exists_parent_of_depth_pos (show 0 < T.depth t by omega)
    have hda : T.depth pa = n := by
      have := T.depth_parent a pa hpa
      omega
    have hdt : T.depth pt = n := by
      have := T.depth_parent t pt hpt
      omega
    have hp : pa = pt := eq_of_label_eq h n hdt hda (h.labelled_parent a pa hpa hla)
      (h.assigned_parent t pt hpt hat) fun k hkn => by
        rw [← h.label_parent a pa hpa hla k (by omega), ← h.label_parent t pt hpt
          (h.labelled_of_assigned t hat) k (by omega)]
        exact hk k (by omega)
    subst hp
    have hne : label t (T.depth pa) ≠ 0 := h.label_ne_zero t pa hpt hat
    have heq : label a (T.depth pa) = label t (T.depth pa) := hk _ (by omega)
    have hcap := h.depth_le_of_assigned t hat
    have haa : assigned a :=
      h.assigned_of_label_ne_zero a pa hpa hla (by omega) (by rw [heq]; exact hne)
    exact h.label_injective a t pa hpa hpt haa hat heq

/-- The prefix test decides the tree order. -/
theorem ancestorOrSelf_iff_cut_eq (h : PathLabelling T cap labelled assigned label) {s t : κ}
    (hs : labelled s) (ht : assigned t) :
    T.AncestorOrSelf t s ↔ ∀ k < T.depth t, cut T cap label s k = label t k := by
  have hcap := h.depth_le_of_assigned t ht
  constructor
  · intro hts k hk
    have hle := hts.depth_le
    rw [cut, if_pos (by omega)]
    exact (label_of_ancestorOrSelf h hts hs).2 k hk
  · intro hk
    by_cases hle : T.depth t ≤ T.depth s
    · obtain ⟨a, has, hat⟩ := exists_ancestorOrSelf_of_le hle
      obtain ⟨hla, hsa⟩ := label_of_ancestorOrSelf h has hs
      have hat' : a = t := eq_of_label_eq h (T.depth t) rfl hat hla ht fun k hkt => by
        rw [← hsa k (by omega), ← hk k hkt, cut, if_pos (by omega)]
      rw [← hat']
      exact has
    · -- `s` is shallower than `t`, so its cut label ends before `t`'s last character
      exfalso
      obtain ⟨p, hp⟩ := exists_parent_of_depth_pos (show 0 < T.depth t by omega)
      have hdp := T.depth_parent t p hp
      have hlast := hk (T.depth p) (by omega)
      rw [cut, if_neg (by omega)] at hlast
      exact h.label_ne_zero t p hp ht hlast.symm

/-- Two assigned nodes with the same cut label are the same node. -/
theorem eq_of_cut_eq (h : PathLabelling T cap labelled assigned label) {a b : κ}
    (ha : assigned a) (hb : assigned b) (hab : ∀ k, cut T cap label a k = cut T cap label b k) :
    a = b := by
  have hcut : ∀ {c}, assigned c → ∀ k < T.depth c, cut T cap label c k = label c k :=
    fun hc k hk => by
      have := h.depth_le_of_assigned _ hc
      rw [cut, if_pos (by omega)]
  have hba : T.AncestorOrSelf b a := (ancestorOrSelf_iff_cut_eq h (h.labelled_of_assigned a ha)
    hb).2 fun k hk => by rw [hab k, hcut hb k hk]
  have hab' : T.AncestorOrSelf a b := (ancestorOrSelf_iff_cut_eq h (h.labelled_of_assigned b hb)
    ha).2 fun k hk => by rw [← hab k, hcut ha k hk]
  exact (hba.eq_of_depth_eq (Nat.le_antisymm hba.depth_le hab'.depth_le)).symm

end Labelling

end PathLabel
