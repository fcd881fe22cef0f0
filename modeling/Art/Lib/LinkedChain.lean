import Mathlib

/-!
# Chains linked through the cells of a table

A table links some of its cells into chains: `next a` is the cell after `a`, `none` at the end of
its chain.  `Linked next c` says that the list `c` is such a chain, cell by cell, and `find` walks
a chain from a cell until a cell passes a test, with fuel.

On a linked chain `find` with fuel for the chain's length returns the first cell that passes the
test (`find_linked`); walking to the cell with no successor gives the chain's last cell
(`find_linked_last`).  A cell starts at most one chain (`Linked.eq_of_head`), so a linked chain
repeats no cell; from any of its cells it goes on as a shorter chain (`Linked.suffix`,
`Linked.of_next`).  Chains grow at their end (`Linked.snoc`) and are untouched by changes to cells
outside them (`Linked.congr`).
-/

namespace LinkedChain

variable {β : Type} (next : β → Option β)

/-- `c` is a chain of `next`: each cell's successor is the next cell of `c`, and the last cell
has none. -/
def Linked : List β → Prop
  | [] => True
  | [a] => next a = none
  | a :: b :: rest => next a = some b ∧ Linked (b :: rest)

/-- Walk the chain from `a` until a cell passes `stop`: `some (some b)` for the first such cell
`b`, `some none` when the chain ends first, `none` when the fuel runs out. -/
def find (stop : β → Bool) : Nat → β → Option (Option β)
  | 0, _ => none
  | fuel + 1, a =>
    if stop a then some (some a)
    else
      match next a with
      | none => some none
      | some b => find stop fuel b

variable {next}

@[simp]
theorem linked_nil : Linked next [] := trivial

@[simp]
theorem linked_cons {a : β} {rest : List β} :
    Linked next (a :: rest) ↔ next a = rest.head? ∧ Linked next rest := by
  cases rest with
  | nil => simp [Linked]
  | cons b rest => simp [Linked]

theorem Linked.tail {a : β} {rest : List β} (h : Linked next (a :: rest)) : Linked next rest :=
  (linked_cons.1 h).2

theorem Linked.append_right {l₁ l₂ : List β} (h : Linked next (l₁ ++ l₂)) : Linked next l₂ := by
  induction l₁ with
  | nil => exact h
  | cons a l₁ ih => exact ih h.tail

/-- The successor of a cell of a chain is the following cell, or nothing for the last cell. -/
theorem Linked.next_eq {l₁ l₂ : List β} {a : β} (h : Linked next (l₁ ++ a :: l₂)) :
    next a = l₂.head? :=
  (linked_cons.1 h.append_right).1

/-- Two chains from one cell are the same chain. -/
theorem Linked.eq_of_head {a : β} {r₁ r₂ : List β} (h₁ : Linked next (a :: r₁))
    (h₂ : Linked next (a :: r₂)) : r₁ = r₂ := by
  induction r₁ generalizing a r₂ with
  | nil =>
    have hr : r₂.head? = none := (linked_cons.1 h₂).1.symm.trans (linked_cons.1 h₁).1
    exact (List.head?_eq_none_iff.1 hr).symm
  | cons b r₁ ih =>
    have hr : r₂.head? = some b := (linked_cons.1 h₂).1.symm.trans (linked_cons.1 h₁).1
    obtain ⟨r₂, rfl⟩ : ∃ r, r₂ = b :: r := by
      cases r₂ with
      | nil => cases hr
      | cons c r => exact ⟨r, by simp_all⟩
    rw [ih h₁.tail h₂.tail]

/-- A linked chain repeats no cell: from a repeated cell the chain would go on twice. -/
theorem Linked.nodup {c : List β} (h : Linked next c) : c.Nodup := by
  induction c with
  | nil => exact List.nodup_nil
  | cons a rest ih =>
    refine List.nodup_cons.2 ⟨fun ha => ?_, ih h.tail⟩
    obtain ⟨pre, post, rfl⟩ := List.append_of_mem ha
    have hpost : Linked next (a :: post) := h.tail.append_right
    have hlen := congrArg List.length (h.eq_of_head hpost)
    simp at hlen
    omega

/-- From each of its cells a linked chain goes on as a shorter linked chain. -/
theorem Linked.suffix {c : List β} {a : β} (h : Linked next c) (ha : a ∈ c) :
    ∃ rest, Linked next (a :: rest) ∧ rest.length < c.length ∧ ∀ x ∈ a :: rest, x ∈ c := by
  obtain ⟨pre, rest, rfl⟩ := List.append_of_mem ha
  refine ⟨rest, h.append_right, by simp; omega, fun x hx => List.mem_append_right _ hx⟩

/-- The successor of a cell of a linked chain goes on as a chain shorter by one more. -/
theorem Linked.of_next {c : List β} {a b : β} (h : Linked next c) (ha : a ∈ c)
    (hab : next a = some b) :
    ∃ rest, Linked next (b :: rest) ∧ rest.length + 1 < c.length ∧ ∀ x ∈ b :: rest, x ∈ c := by
  obtain ⟨pre, post, rfl⟩ := List.append_of_mem ha
  rw [h.next_eq] at hab
  obtain ⟨rest, rfl⟩ : ∃ rest, post = b :: rest := by
    cases post with
    | nil => cases hab
    | cons b' rest => exact ⟨rest, by simpa using hab⟩
  have hab : Linked next (a :: b :: rest) := h.append_right
  have hrest : Linked next (b :: rest) := hab.tail
  refine ⟨rest, hrest, by simp; omega, fun x hx => ?_⟩
  simp only [List.mem_append, List.mem_cons] at hx ⊢
  tauto

/-- Cells outside a chain do not matter to it. -/
theorem Linked.congr {next' : β → Option β} {c : List β} (h : Linked next c)
    (hc : ∀ a ∈ c, next' a = next a) : Linked next' c := by
  induction c with
  | nil => trivial
  | cons a rest ih =>
    rw [linked_cons] at h ⊢
    exact ⟨(hc a (by simp)).trans h.1, ih h.2 fun b hb => hc b (by simp [hb])⟩

/-- A chain that ends in `t` grows by `x` when `t` is linked to `x`, `x` ends the chain, and the
earlier cells keep their successors. -/
theorem Linked.snoc {next' : β → Option β} {c : List β} {t x : β} (h : Linked next (c ++ [t]))
    (hc : ∀ a ∈ c, next' a = next a) (ht : next' t = some x) (hx : next' x = none) :
    Linked next' (c ++ [t, x]) := by
  induction c with
  | nil => simp [ht, hx]
  | cons a rest ih =>
    have ha := (linked_cons.1 h).1
    have hrest := ih h.tail fun b hb => hc b (by simp [hb])
    rw [List.cons_append, linked_cons]
    refine ⟨?_, hrest⟩
    rw [hc a (by simp), ha]
    cases rest <;> rfl

/-- On a linked chain with fuel for its length, `find` returns the chain's first cell that
passes the test. -/
theorem find_linked (stop : β → Bool) :
    ∀ {a : β} {rest : List β} {fuel : Nat}, Linked next (a :: rest) → rest.length < fuel →
      find next stop fuel a = some ((a :: rest).find? stop)
  | _, _, 0, _, hfuel => absurd hfuel (Nat.not_lt_zero _)
  | a, rest, fuel + 1, h, hfuel => by
    have hnext := (linked_cons.1 h).1
    unfold find
    by_cases ha : stop a = true
    · simp [ha]
    · rw [if_neg ha, hnext, List.find?_cons_of_neg ha]
      cases rest with
      | nil => rfl
      | cons b rest =>
        exact find_linked stop h.tail (by simp at hfuel ⊢; omega)

/-- The only cell of a linked chain with no successor is its last. -/
theorem Linked.find?_isNone {c : List β} (h : Linked next c) :
    c.find? (fun a => (next a).isNone) = c.getLast? := by
  induction c with
  | nil => rfl
  | cons a rest ih =>
    have ha := (linked_cons.1 h).1
    cases rest with
    | nil => simp [ha]
    | cons b rest =>
      rw [List.find?_cons_of_neg (by simp [ha]), ih h.tail, List.getLast?_cons_cons]

/-- Walking a linked chain to the cell with no successor gives its last cell. -/
theorem find_linked_last {a : β} {rest : List β} {fuel : Nat} (h : Linked next (a :: rest))
    (hfuel : rest.length < fuel) :
    find next (fun a => (next a).isNone) fuel a = some ((a :: rest).getLast?) := by
  rw [find_linked _ h hfuel, h.find?_isNone]

end LinkedChain
