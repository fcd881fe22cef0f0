import Mathlib

/-!
# Capped sets

The states of a cache that records the distinct values it sees until it would hold `n` of them,
and from then on only that there were many: a set of fewer than `n` values, `many` above every
such set, and `unknown` above `many`, for a cache that lost track of what it saw.

Ordered by inclusion and then along that chain they form a join semilattice whose least element
is the empty set.  A set of values is recorded as `ofFinset`, which is `many` from `n` values on,
and the join of two recorded sets is the record of their union (`ofFinset_sup_ofFinset`).
-/

/-- A set of fewer than `n` values of `α`, `many`, or `unknown`. -/
inductive CappedSet (α : Type*) (n : ℕ) where
  | set (s : Finset α) (h : s.card < n)
  | many
  | unknown

namespace CappedSet

variable {α : Type*} {n : ℕ}

/-- Sets by inclusion, every set below `many`, and `many` below `unknown`. -/
def le : CappedSet α n → CappedSet α n → Prop
  | set s _, set t _ => s ⊆ t
  | set _ _, _ => True
  | many, set _ _ => False
  | many, _ => True
  | unknown, unknown => True
  | unknown, _ => False

instance : PartialOrder (CappedSet α n) where
  le := le
  le_refl x := by
    cases x <;> simp [le]
  le_trans x y z := by
    rcases x with ⟨s, _⟩ | _ | _ <;> rcases y with ⟨t, _⟩ | _ | _ <;>
      rcases z with ⟨u, _⟩ | _ | _ <;> simp only [le, imp_self, implies_true, false_imp_iff,
        imp_false, not_true_eq_false]
    exact fun hst htu => hst.trans htu
  le_antisymm x y := by
    rcases x with ⟨s, _⟩ | _ | _ <;> rcases y with ⟨t, _⟩ | _ | _ <;>
      simp only [le, imp_self, imp_false, not_true_eq_false, reduceCtorEq]
    intro hst hts
    cases Finset.Subset.antisymm hst hts
    rfl

@[simp] theorem set_le_set {s t : Finset α} {hs : s.card < n} {ht : t.card < n} :
    set s hs ≤ set t ht ↔ s ⊆ t := Iff.rfl

@[simp] theorem set_le_many {s : Finset α} {hs : s.card < n} : set s hs ≤ many := trivial

@[simp] theorem le_unknown (x : CappedSet α n) : x ≤ unknown := by
  cases x <;> trivial

@[simp] theorem many_le_set {s : Finset α} {hs : s.card < n} : ¬ many ≤ set s hs := id

@[simp] theorem unknown_le_iff {x : CappedSet α n} : unknown ≤ x ↔ x = unknown := by
  cases x <;> simp only [reduceCtorEq, iff_true] <;> first | exact id | trivial

/-- A set of values as the cache records it: the set below `n` values, `many` from `n` on. -/
def ofFinset (s : Finset α) : CappedSet α n := if h : s.card < n then set s h else many

theorem ofFinset_of_lt {s : Finset α} (h : s.card < n) : (ofFinset s : CappedSet α n) = set s h :=
  dif_pos h

theorem ofFinset_of_le {s : Finset α} (h : n ≤ s.card) : (ofFinset s : CappedSet α n) = many :=
  dif_neg (not_lt.mpr h)

theorem ofFinset_le_many (s : Finset α) : (ofFinset s : CappedSet α n) ≤ many := by
  unfold ofFinset
  split_ifs <;> trivial

theorem set_le_ofFinset {s t : Finset α} {hs : s.card < n} (hst : s ⊆ t) :
    set s hs ≤ ofFinset t := by
  unfold ofFinset
  split_ifs
  · exact hst
  · trivial

theorem ofFinset_le_set {s t : Finset α} {ht : t.card < n} (hst : s ⊆ t) :
    ofFinset s ≤ set t ht := by
  rw [ofFinset_of_lt ((Finset.card_le_card hst).trans_lt ht)]
  exact hst

variable [DecidableEq α]

/-- The join: `unknown` absorbs everything, `many` absorbs the sets, and two sets join to the
record of their union. -/
def sup : CappedSet α n → CappedSet α n → CappedSet α n
  | unknown, _ => unknown
  | _, unknown => unknown
  | many, _ => many
  | _, many => many
  | set s _, set t _ => ofFinset (s ∪ t)

instance : SemilatticeSup (CappedSet α n) where
  sup := sup
  le_sup_left x y := by
    rcases x with ⟨s, _⟩ | _ | _ <;> rcases y with ⟨t, _⟩ | _ | _ <;> simp only [sup, le_refl,
      le_unknown, set_le_many]
    exact set_le_ofFinset Finset.subset_union_left
  le_sup_right x y := by
    rcases x with ⟨s, _⟩ | _ | _ <;> rcases y with ⟨t, _⟩ | _ | _ <;> simp only [sup, le_refl,
      le_unknown, set_le_many]
    exact set_le_ofFinset Finset.subset_union_right
  sup_le x y z := by
    rcases x with ⟨s, _⟩ | _ | _ <;> rcases y with ⟨t, _⟩ | _ | _ <;>
      rcases z with ⟨u, _⟩ | _ | _ <;> simp only [sup, set_le_set, set_le_many, le_refl,
        le_unknown, many_le_set, unknown_le_iff, imp_self, implies_true, false_imp_iff,
        imp_false, reduceCtorEq, true_imp_iff]
    · exact fun hs ht => ofFinset_le_set (Finset.union_subset hs ht)
    · exact ofFinset_le_many _

instance : OrderBot (CappedSet α n) where
  bot := ofFinset ∅
  bot_le x := by
    unfold ofFinset
    split_ifs with h
    · rcases x with ⟨s, _⟩ | _ | _
      · exact Finset.empty_subset s
      · trivial
      · trivial
    · -- no set has fewer than `0` values, so `many` is the least element
      rcases x with ⟨s, hs⟩ | _ | _
      · exact absurd (lt_of_le_of_lt (Nat.zero_le _) hs) (by simpa using h)
      · exact le_rfl
      · trivial

omit [DecidableEq α] in
theorem bot_eq : (⊥ : CappedSet α n) = ofFinset ∅ := rfl

@[simp] theorem unknown_sup (x : CappedSet α n) : unknown ⊔ x = unknown := rfl

@[simp] theorem sup_unknown (x : CappedSet α n) : x ⊔ unknown = unknown := by
  cases x <;> rfl

/-- `many` absorbs every recorded set. -/
theorem ofFinset_sup_many (s : Finset α) : (ofFinset s : CappedSet α n) ⊔ many = many := by
  unfold ofFinset
  split_ifs <;> rfl

theorem many_sup_ofFinset (s : Finset α) : many ⊔ (ofFinset s : CappedSet α n) = many := by
  rw [sup_comm, ofFinset_sup_many]

/-- Joining recorded sets records their union: a union of `n` or more values is `many` whether
or not one of the sets already was. -/
theorem ofFinset_sup_ofFinset (s t : Finset α) :
    (ofFinset s : CappedSet α n) ⊔ ofFinset t = ofFinset (s ∪ t) := by
  by_cases hs : s.card < n
  · by_cases ht : t.card < n
    · rw [ofFinset_of_lt hs, ofFinset_of_lt ht]
      rfl
    · rw [ofFinset_of_le (not_lt.mp ht), sup_comm, many_sup_ofFinset,
        ofFinset_of_le ((not_lt.mp ht).trans (Finset.card_le_card Finset.subset_union_right))]
  · rw [ofFinset_of_le (not_lt.mp hs), many_sup_ofFinset,
      ofFinset_of_le ((not_lt.mp hs).trans (Finset.card_le_card Finset.subset_union_left))]

end CappedSet
