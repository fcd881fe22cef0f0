import Mathlib

/-!
# Comparison by the first difference

`lexCompare xs ys` is `-1`, `0` or `1` as the first place the two lists differ holds the smaller
or the larger element, and `0` when one runs out first.  On lists of one length it is a total
order: it changes sign when its arguments are swapped (`lexCompare_swap`), it is `0` exactly on
equal lists (`lexCompare_eq_zero_iff`), and `≤ 0` is transitive (`lexCompare_trans`).  A search
that stops at the first pair of keys that differ computes it (`getD_findSome?_eq_lexCompare`).
-/

namespace Art

variable {α : Type} [LinearOrder α]

def lexCompare : List α → List α → Int
  | x :: xs, y :: ys => if x ≠ y then (if x < y then -1 else 1) else lexCompare xs ys
  | _, _ => 0

@[simp] theorem lexCompare_nil_left (ys : List α) : lexCompare [] ys = 0 := rfl

@[simp] theorem lexCompare_nil_right (xs : List α) : lexCompare xs [] = 0 := by
  cases xs <;> rfl

theorem lexCompare_cons (x y : α) (xs ys : List α) :
    lexCompare (x :: xs) (y :: ys) = if x ≠ y then (if x < y then -1 else 1) else lexCompare xs ys :=
  rfl

theorem lexCompare_swap : ∀ xs ys : List α, lexCompare ys xs = -lexCompare xs ys
  | [], ys => by simp
  | x :: xs, [] => by simp
  | x :: xs, y :: ys => by
    rw [lexCompare_cons, lexCompare_cons, lexCompare_swap xs ys]
    by_cases hxy : x = y
    · simp [hxy]
    · rcases lt_or_gt_of_ne hxy with h | h
      · simp [hxy, Ne.symm hxy, h, not_lt_of_gt h]
      · simp [hxy, Ne.symm hxy, h, not_lt_of_gt h]

theorem lexCompare_eq_zero_iff :
    ∀ {xs ys : List α}, xs.length = ys.length → (lexCompare xs ys = 0 ↔ xs = ys)
  | [], [], _ => by simp
  | x :: xs, y :: ys, h => by
    rw [lexCompare_cons, List.cons.injEq, ← lexCompare_eq_zero_iff (Nat.succ.inj h)]
    by_cases hxy : x = y
    · simp [hxy]
    · simp only [ne_eq, hxy, not_false_eq_true, if_true, false_and, iff_false]
      split <;> decide

theorem lexCompare_cons_nonpos_iff (x y : α) (xs ys : List α) :
    lexCompare (x :: xs) (y :: ys) ≤ 0 ↔ x < y ∨ (x = y ∧ lexCompare xs ys ≤ 0) := by
  rw [lexCompare_cons]
  by_cases hxy : x = y
  · simp [hxy]
  · rcases lt_or_gt_of_ne hxy with h | h
    · simp [hxy, h]
    · simp [hxy, not_lt_of_gt h]

theorem lexCompare_trans :
    ∀ {xs ys zs : List α}, xs.length = ys.length → ys.length = zs.length →
      lexCompare xs ys ≤ 0 → lexCompare ys zs ≤ 0 → lexCompare xs zs ≤ 0
  | [], _, _, _, _, _, _ => by simp
  | _ :: _, [], _, h, _, _, _ => absurd h (by simp)
  | _ :: _, _ :: _, [], _, h, _, _ => absurd h (by simp)
  | x :: xs, y :: ys, z :: zs, h1, h2, hxy, hyz => by
    rw [lexCompare_cons_nonpos_iff] at hxy hyz ⊢
    rcases hxy with hxy | ⟨rfl, hxy⟩ <;> rcases hyz with hyz | ⟨rfl, hyz⟩
    · exact Or.inl (lt_trans hxy hyz)
    · exact Or.inl hxy
    · exact Or.inl hyz
    · exact Or.inr ⟨rfl, lexCompare_trans (Nat.succ.inj h1) (Nat.succ.inj h2) hxy hyz⟩

/-- The first pair of keys that differ decides. -/
theorem getD_findSome?_eq_lexCompare {β : Type} (f g : β → α) :
    ∀ cs : List β, (cs.findSome? fun c =>
      if f c ≠ g c then some (if f c < g c then (-1 : Int) else 1) else none).getD 0 =
        lexCompare (cs.map f) (cs.map g)
  | [] => rfl
  | c :: cs => by
    rw [List.findSome?_cons, List.map_cons, List.map_cons, lexCompare_cons]
    by_cases h : f c = g c
    · simp only [h, ne_eq, not_true_eq_false, if_false]
      exact getD_findSome?_eq_lexCompare f g cs
    · simp [h]

end Art
