import Mathlib

/-!
# Searches that reuse what they found before

A search from a vertex looks at a set `D` of vertices and collects a set `R`.  Some vertices of
`D` it expands: their successors go into `R` and into `D`.  Others it does not expand because what
they reach is known already, and it puts all of that into `R` at once.  When the search is over,
every vertex of `D` is one or the other, and then `R` holds everything a vertex of `D` reaches in
one step or more.  The other direction, that `R` holds nothing else, is an invariant of each step
(`transGen_of_refl_trans`).
-/

namespace Relation

variable {α : Type*} {r : α → α → Prop}

/-- A set that every vertex of `D` either covers or expands into holds all that `D` reaches. -/
theorem transGen_mem_of_closed {D R : Set α}
    (hclosed : ∀ u ∈ D, (∀ w, TransGen r u w → w ∈ R) ∨ (∀ v, r u v → v ∈ R ∧ v ∈ D))
    {u w : α} (hu : u ∈ D) (h : TransGen r u w) : w ∈ R := by
  revert hu
  induction h using Relation.TransGen.head_induction_on with
  | single huw =>
    intro hu
    rcases hclosed _ hu with hcover | hexpand
    · exact hcover _ (.single huw)
    · exact (hexpand _ huw).1
  | head huv hvw ih =>
    intro hu
    rcases hclosed _ hu with hcover | hexpand
    · exact hcover _ (.head huv hvw)
    · exact ih (hexpand _ huv).2

/-- What a vertex reached from `t` (or `t` itself) reaches, `t` reaches. -/
theorem transGen_of_refl_trans {t u w : α} (htu : u = t ∨ TransGen r t u) (huw : TransGen r u w) :
    TransGen r t w := by
  rcases htu with rfl | htu
  · exact huw
  · exact htu.trans huw

/-- A successor of a vertex reached from `t` (or of `t` itself) is reached from `t`. -/
theorem transGen_of_refl_step {t u v : α} (htu : u = t ∨ TransGen r t u) (huv : r u v) :
    TransGen r t v :=
  transGen_of_refl_trans htu (.single huv)

end Relation
