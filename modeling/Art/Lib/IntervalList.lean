import Mathlib

/-!
# Sorted lists of half-open intervals

A list of values, each read as the interval `[lo r, hi r)`, is `Sorted` when every interval is
non-empty and each ends strictly before the next starts.  `Covered l q` says that some interval
of `l` holds `q`.

In a sorted list every point covered is at or after the first interval's start
(`Sorted.lo_le_of_covered`), so the first interval not ending at or before `q` decides whether
`q` is covered (`covered_iff_dropWhile`).  Cutting the list at a point `p` inside or before an
interval `c` splits the covered set into the points below `p` and those at or above it
(`covered_split_below`, `covered_split_above`).

`FirstCommon l m x` says that `x` is the least point both lists cover, `none` when they share no
point.  A merge walking two sorted lists may drop an interval that ends before the other list's
first starts (`firstCommon_cons_of_hi_le_lo`), and two overlapping first intervals give the
answer (`firstCommon_of_overlap`).
-/

namespace IntervalList

variable {α : Type*} (lo hi : α → Nat)

/-- Each interval is non-empty and ends strictly before the next one starts. -/
structure Sorted (l : List α) : Prop where
  lt : ∀ r ∈ l, lo r < hi r
  chain : l.IsChain fun r s => hi r < lo s

/-- Some interval of `l` holds `q`. -/
def Covered (l : List α) (q : Nat) : Prop := ∃ r ∈ l, lo r ≤ q ∧ q < hi r

instance (l : List α) (q : Nat) : Decidable (Covered lo hi l q) :=
  inferInstanceAs (Decidable (∃ r ∈ l, lo r ≤ q ∧ q < hi r))

instance (l : List α) : Decidable (Sorted lo hi l) :=
  decidable_of_iff ((∀ r ∈ l, lo r < hi r) ∧ l.IsChain fun r s => hi r < lo s)
    ⟨fun ⟨hlt, hchain⟩ => ⟨hlt, hchain⟩, fun ⟨hlt, hchain⟩ => ⟨hlt, hchain⟩⟩

/-- The least point both lists cover, `none` when they share no point. -/
def FirstCommon (l m : List α) : Option Nat → Prop
  | some x => IsLeast {q | Covered lo hi l q ∧ Covered lo hi m q} x
  | none => ∀ q, ¬(Covered lo hi l q ∧ Covered lo hi m q)

variable {lo hi}

section Covered

@[simp] theorem covered_nil (q : Nat) : ¬Covered lo hi [] q := by
  simp [Covered]

theorem covered_cons {r : α} {l : List α} {q : Nat} :
    Covered lo hi (r :: l) q ↔ (lo r ≤ q ∧ q < hi r) ∨ Covered lo hi l q := by
  simp [Covered]

theorem covered_append {l₁ l₂ : List α} {q : Nat} :
    Covered lo hi (l₁ ++ l₂) q ↔ Covered lo hi l₁ q ∨ Covered lo hi l₂ q := by
  simp only [Covered, List.mem_append]
  constructor
  · rintro ⟨r, hr | hr, hq⟩
    · exact Or.inl ⟨r, hr, hq⟩
    · exact Or.inr ⟨r, hr, hq⟩
  · rintro (⟨r, hr, hq⟩ | ⟨r, hr, hq⟩)
    · exact ⟨r, Or.inl hr, hq⟩
    · exact ⟨r, Or.inr hr, hq⟩

/-- Intervals that all end at or before `q` cover nothing at or after `q`. -/
theorem not_covered_of_hi_le {l : List α} {q y : Nat} (h : ∀ r ∈ l, hi r ≤ q) (hy : q ≤ y) :
    ¬Covered lo hi l y := by
  rintro ⟨r, hr, -, hyr⟩
  have := h r hr
  omega

end Covered

section Sorted

theorem sorted_nil : Sorted lo hi ([] : List α) := ⟨by simp, List.isChain_nil⟩

theorem sorted_cons_iff {r : α} {l : List α} :
    Sorted lo hi (r :: l) ↔ lo r < hi r ∧ (∀ s ∈ l.head?, hi r < lo s) ∧ Sorted lo hi l := by
  constructor
  · rintro ⟨hlt, hchain⟩
    refine ⟨hlt r List.mem_cons_self, fun s hs => ?_,
      ⟨fun s hs => hlt s (List.mem_cons_of_mem r hs), hchain.tail⟩⟩
    cases l with
    | nil => simp at hs
    | cons s' l =>
      rw [List.head?_cons, Option.mem_some_iff] at hs
      subst hs
      exact (List.isChain_cons_cons.1 hchain).1
  · rintro ⟨hr, hhead, hlt, hchain⟩
    refine ⟨fun s hs => ?_, ?_⟩
    · rcases List.mem_cons.1 hs with rfl | hs
      · exact hr
      · exact hlt s hs
    · cases l with
      | nil => exact List.isChain_singleton r
      | cons s l => exact List.isChain_cons_cons.2 ⟨hhead s rfl, hchain⟩

theorem sorted_append_iff {l₁ l₂ : List α} :
    Sorted lo hi (l₁ ++ l₂) ↔ Sorted lo hi l₁ ∧ Sorted lo hi l₂ ∧
      ∀ r ∈ l₁.getLast?, ∀ s ∈ l₂.head?, hi r < lo s := by
  constructor
  · rintro ⟨hlt, hchain⟩
    obtain ⟨h₁, h₂, hjoin⟩ := List.isChain_append.1 hchain
    exact ⟨⟨fun r hr => hlt r (List.mem_append_left _ hr), h₁⟩,
      ⟨fun r hr => hlt r (List.mem_append_right _ hr), h₂⟩, hjoin⟩
  · rintro ⟨⟨hlt₁, h₁⟩, ⟨hlt₂, h₂⟩, hjoin⟩
    refine ⟨fun r hr => ?_, h₁.append h₂ hjoin⟩
    rcases List.mem_append.1 hr with hr | hr
    · exact hlt₁ r hr
    · exact hlt₂ r hr

theorem Sorted.tail {r : α} {l : List α} (h : Sorted lo hi (r :: l)) : Sorted lo hi l :=
  (sorted_cons_iff.1 h).2.2

theorem Sorted.left {l₁ l₂ : List α} (h : Sorted lo hi (l₁ ++ l₂)) : Sorted lo hi l₁ :=
  (sorted_append_iff.1 h).1

theorem Sorted.right {l₁ l₂ : List α} (h : Sorted lo hi (l₁ ++ l₂)) : Sorted lo hi l₂ :=
  (sorted_append_iff.1 h).2.1

/-- Every interval after the first starts after the first ends. -/
theorem Sorted.hi_lt_lo {r : α} {l : List α} (h : Sorted lo hi (r :: l)) :
    ∀ s ∈ l, hi r < lo s := by
  induction l generalizing r with
  | nil => simp
  | cons s l ih =>
    obtain ⟨-, hhead, hs⟩ := sorted_cons_iff.1 h
    have hrs : hi r < lo s := hhead s rfl
    -- the intervals after `s` start after `s` ends, which is after `s` starts
    have hlt : lo s < hi s := hs.lt s List.mem_cons_self
    intro t ht
    rcases List.mem_cons.1 ht with rfl | ht
    · exact hrs
    · have := ih hs t ht
      omega

/-- Every interval before `c` ends before `c` starts. -/
theorem Sorted.hi_lt_lo_of_mem_left {l₁ l₂ : List α} {c x : α} (h : Sorted lo hi (l₁ ++ c :: l₂))
    (hx : x ∈ l₁) : hi x < lo c := by
  obtain ⟨A, B, rfl⟩ := List.append_of_mem hx
  rw [List.append_assoc, List.cons_append] at h
  exact h.right.hi_lt_lo c (List.mem_append_right _ List.mem_cons_self)

/-- The first interval starts first. -/
theorem Sorted.lo_le_lo {r s : α} {l : List α} (h : Sorted lo hi (r :: l)) (hs : s ∈ r :: l) :
    lo r ≤ lo s := by
  rcases List.mem_cons.1 hs with rfl | hs
  · exact Nat.le_refl _
  · have := h.hi_lt_lo s hs
    have := h.lt r List.mem_cons_self
    omega

/-- Every point a sorted list covers is at or after its first start. -/
theorem Sorted.lo_le_of_covered {r : α} {l : List α} (h : Sorted lo hi (r :: l)) {y : Nat}
    (hy : Covered lo hi (r :: l) y) : lo r ≤ y := by
  rcases covered_cons.1 hy with hy | ⟨s, hs, hsy, -⟩
  · exact hy.1
  · have := h.hi_lt_lo s hs
    have := h.lt r List.mem_cons_self
    omega

/-- Below the end of the first interval, only the first interval can cover. -/
theorem Sorted.covered_cons_iff_of_lt {r : α} {l : List α} (h : Sorted lo hi (r :: l)) {y : Nat}
    (hy : y < hi r) : Covered lo hi (r :: l) y ↔ lo r ≤ y := by
  refine ⟨fun hc => h.lo_le_of_covered hc, fun hry => covered_cons.2 (Or.inl ⟨hry, hy⟩)⟩

/-- Above the end of the first interval, only the rest can cover. -/
theorem covered_cons_iff_of_le {r : α} {l : List α} {y : Nat} (hy : hi r ≤ y) :
    Covered lo hi (r :: l) y ↔ Covered lo hi l y := by
  rw [covered_cons]
  constructor
  · rintro (⟨-, hyr⟩ | hc)
    · omega
    · exact hc
  · exact Or.inr

end Sorted

section Find

/-- The first interval that does not end at or before `q` decides whether `q` is covered. -/
theorem covered_iff_dropWhile {l : List α} (h : Sorted lo hi l) (q : Nat) :
    Covered lo hi l q ↔ ∃ r ∈ (l.dropWhile fun r => hi r ≤ q).head?, lo r ≤ q := by
  induction l with
  | nil => simp
  | cons r l ih =>
    by_cases hr : hi r ≤ q
    · rw [List.dropWhile_cons_of_pos (p := fun r => decide (hi r ≤ q)) (by simpa using hr),
        covered_cons_iff_of_le hr]
      exact ih h.tail
    · rw [List.dropWhile_cons_of_neg (p := fun r => decide (hi r ≤ q)) (by simpa using hr),
        h.covered_cons_iff_of_lt (by omega)]
      simp

/-- Skipping intervals that end at or before `q` finds the same first interval. -/
theorem dropWhile_append_of_hi_le {l₁ l₂ : List α} {q : Nat} (h : ∀ r ∈ l₁, hi r ≤ q) :
    (l₁ ++ l₂).dropWhile (fun r => hi r ≤ q) = l₂.dropWhile fun r => hi r ≤ q :=
  List.dropWhile_append_of_pos fun r hr => decide_eq_true (h r hr)

/-- What `dropWhile` skips ends at or before `q`. -/
theorem hi_le_of_mem_takeWhile {l : List α} {q : Nat} {r : α}
    (hr : r ∈ l.takeWhile fun r => hi r ≤ q) : hi r ≤ q := by
  simpa using List.mem_takeWhile_imp hr

end Find

section Split

variable {pre rest : List α} {c : α} {p : Nat}

/-- Cutting a sorted list at `p`, where the intervals before `c` end at or before `p` and `c`
ends after it: the points below `p` are those of the intervals before `c` and of `c` below `p`. -/
theorem covered_split_below (h : Sorted lo hi (pre ++ c :: rest)) (hpre : ∀ r ∈ pre, hi r ≤ p)
    (hp : p < hi c) (q : Nat) :
    Covered lo hi (pre ++ c :: rest) q ∧ q < p ↔ Covered lo hi pre q ∨ (lo c ≤ q ∧ q < p) := by
  have hrest : ∀ s ∈ rest, hi c < lo s := h.right.hi_lt_lo
  constructor
  · rintro ⟨hq, hqp⟩
    rcases covered_append.1 hq with hq | hq
    · exact Or.inl hq
    · rcases covered_cons.1 hq with hq | ⟨s, hs, hsq, -⟩
      · exact Or.inr ⟨hq.1, hqp⟩
      · -- the intervals after `c` start after `p`
        have := hrest s hs
        omega
  · rintro (hq | ⟨hcq, hqp⟩)
    · refine ⟨covered_append.2 (Or.inl hq), ?_⟩
      obtain ⟨r, hr, -, hqr⟩ := hq
      exact Nat.lt_of_lt_of_le hqr (hpre r hr)
    · exact ⟨covered_append.2 (Or.inr (covered_cons.2 (Or.inl ⟨hcq, by omega⟩))), hqp⟩

/-- The same cut: the points at or above `p` are those of `c` from `p` on and of the intervals
after `c`. -/
theorem covered_split_above (h : Sorted lo hi (pre ++ c :: rest)) (hpre : ∀ r ∈ pre, hi r ≤ p)
    (hp : p < hi c) (q : Nat) :
    Covered lo hi (pre ++ c :: rest) q ∧ p ≤ q ↔
      (lo c ≤ q ∧ p ≤ q ∧ q < hi c) ∨ Covered lo hi rest q := by
  have hrest : ∀ s ∈ rest, hi c < lo s := h.right.hi_lt_lo
  constructor
  · rintro ⟨hq, hpq⟩
    rcases covered_append.1 hq with hq | hq
    · exact absurd hq (not_covered_of_hi_le hpre hpq)
    · rcases covered_cons.1 hq with hq | hq
      · exact Or.inl ⟨hq.1, hpq, hq.2⟩
      · exact Or.inr hq
  · rintro (⟨hcq, hpq, hqc⟩ | hq)
    · exact ⟨covered_append.2 (Or.inr (covered_cons.2 (Or.inl ⟨hcq, hqc⟩))), hpq⟩
    · refine ⟨covered_append.2 (Or.inr (covered_cons.2 (Or.inr hq))), ?_⟩
      obtain ⟨s, hs, hsq, -⟩ := hq
      have := hrest s hs
      omega

end Split

section Intersect

variable {l m pre : List α} {r s : α} {x : Option Nat}

theorem firstCommon_nil_left : FirstCommon lo hi [] m none := by
  simp [FirstCommon]

theorem firstCommon_nil_right : FirstCommon lo hi l [] none := by
  simp [FirstCommon]

theorem firstCommon_comm : FirstCommon lo hi l m x ↔ FirstCommon lo hi m l x := by
  cases x <;> simp only [FirstCommon, and_comm]

/-- Intervals ending at or before the start of `s` share no point with `s :: m`. -/
theorem covered_both_append_of_hi_le (hs : Sorted lo hi (s :: m)) (hpre : ∀ r ∈ pre, hi r ≤ lo s)
    (q : Nat) :
    Covered lo hi (pre ++ l) q ∧ Covered lo hi (s :: m) q ↔
      Covered lo hi l q ∧ Covered lo hi (s :: m) q := by
  refine and_congr_left fun hq => ?_
  have hpre_q : ¬Covered lo hi pre q := not_covered_of_hi_le hpre (hs.lo_le_of_covered hq)
  rw [covered_append, or_iff_right hpre_q]

theorem firstCommon_append_of_hi_le (hs : Sorted lo hi (s :: m))
    (hpre : ∀ r ∈ pre, hi r ≤ lo s) :
    FirstCommon lo hi (pre ++ l) (s :: m) x ↔ FirstCommon lo hi l (s :: m) x := by
  have hboth := covered_both_append_of_hi_le (l := l) hs hpre
  cases x with
  | none => exact forall_congr' fun q => not_congr (hboth q)
  | some x =>
    have hset : {q | Covered lo hi (pre ++ l) q ∧ Covered lo hi (s :: m) q} =
        {q | Covered lo hi l q ∧ Covered lo hi (s :: m) q} := Set.ext hboth
    simp only [FirstCommon, hset]

/-- An interval ending at or before the other list's first start can be dropped. -/
theorem firstCommon_cons_of_hi_le_lo (hs : Sorted lo hi (s :: m)) (hrs : hi r ≤ lo s) :
    FirstCommon lo hi (r :: l) (s :: m) x ↔ FirstCommon lo hi l (s :: m) x :=
  show FirstCommon lo hi ([r] ++ l) (s :: m) x ↔ _ from
    firstCommon_append_of_hi_le hs (by simpa using hrs)

/-- Two overlapping first intervals: the least common point is where the later one starts. -/
theorem firstCommon_of_overlap (hr : Sorted lo hi (r :: l)) (hs : Sorted lo hi (s :: m))
    (hrs : lo s < hi r) (hsr : lo r < hi s) :
    FirstCommon lo hi (r :: l) (s :: m) (some (max (lo r) (lo s))) := by
  have hlt_r := hr.lt r List.mem_cons_self
  have hlt_s := hs.lt s List.mem_cons_self
  refine ⟨⟨covered_cons.2 (Or.inl ⟨le_max_left _ _, max_lt hlt_r hrs⟩),
    covered_cons.2 (Or.inl ⟨le_max_right _ _, max_lt hsr hlt_s⟩)⟩, ?_⟩
  -- every common point is at or after both starts
  rintro q ⟨hq_r, hq_s⟩
  exact max_le (hr.lo_le_of_covered hq_r) (hs.lo_le_of_covered hq_s)

end Intersect

end IntervalList
