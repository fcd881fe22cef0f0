import Mathlib

/-!
# Linear probing

A table of `n` slots `[0, n)` is read cyclically, the slot after `n - 1` being `0`, and `fwd n a b`
counts the steps forward from slot `a` to slot `b`.  Each slot holds an element, free or taken,
and a taken element has a home slot where its probe starts.

The table is *probe-closed* (`ProbeInv`) when no free slot lies on the way from an element's home
to the element: a probe from the home meets the element before any free slot.  Putting an element
into a free slot that its probe reached keeps that (`probeInv_update`).

Backward-shift deletion makes a slot the hole and walks on from it.  An element whose home is not
strictly after the hole and at or before the element moves into the hole, and the hole moves to
where the element was.  Along that walk the table stays probe-closed with the hole counted as
taken, and every element passed over has its home strictly after the hole (`ShiftInv`).  When the
walk meets a free slot, emptying the hole leaves a probe-closed table (`ShiftInv.probeInv_clear`)
holding what it held before but the element of the first hole (`contentsExcept_move`,
`contents_clear`).
-/

namespace LinearProbing

variable {α : Type} (n : Nat) (free : α → Bool) (home : α → Nat)

/-- The number of steps forward from slot `a` to slot `b`. -/
def fwd (a b : Nat) : Nat := if a ≤ b then b - a else b + n - a

/-- No free slot lies on the way from the home of a taken slot's element to the slot. -/
def ProbeInv (d : Nat → α) : Prop :=
  ∀ k < n, free (d k) = false → ∀ j < n,
    fwd n (home (d k)) j ≤ fwd n (home (d k)) k → free (d j) = false

/-- The elements of the taken slots. -/
def contents (d : Nat → α) : Multiset α :=
  ∑ i ∈ Finset.range n, if free (d i) = false then {d i} else 0

/-- The elements of the taken slots other than `hole`. -/
def contentsExcept (d : Nat → α) (hole : Nat) : Multiset α :=
  ∑ i ∈ Finset.range n, if i ≠ hole ∧ free (d i) = false then {d i} else 0

/-! ## Steps forward around the table -/

section Fwd

variable {n}

theorem fwd_lt {a b : Nat} (ha : a < n) (hb : b < n) : fwd n a b < n := by
  unfold fwd
  split <;> omega

@[simp] theorem fwd_self (a : Nat) : fwd n a a = 0 := by
  simp [fwd]

theorem fwd_eq_zero_iff {a b : Nat} (ha : a < n) : fwd n a b = 0 ↔ a = b := by
  unfold fwd
  split <;> omega

theorem fwd_inj {a b c : Nat} (ha : a < n) (hb : b < n) (hc : c < n)
    (h : fwd n a b = fwd n a c) : b = c := by
  unfold fwd at h
  split at h <;> split at h <;> omega

/-- The slot after `b`. -/
theorem succ_mod_cases {b : Nat} (hb : b < n) :
    ((b + 1) % n = b + 1 ∧ b + 1 < n) ∨ ((b + 1) % n = 0 ∧ b + 1 = n) := by
  rcases Nat.lt_or_ge (b + 1) n with h | h
  · exact .inl ⟨Nat.mod_eq_of_lt h, h⟩
  · have hn : b + 1 = n := by omega
    exact .inr ⟨by rw [hn, Nat.mod_self], hn⟩

/-- One more step forward, unless it comes back to `a`. -/
theorem fwd_succ {a b : Nat} (ha : a < n) (hb : b < n) (hne : (b + 1) % n ≠ a) :
    fwd n a ((b + 1) % n) = fwd n a b + 1 := by
  rcases succ_mod_cases hb with ⟨h, hlt⟩ | ⟨h, hlt⟩ <;> rw [h] at hne ⊢ <;> unfold fwd <;>
    split_ifs <;> omega

/-- One more step forward from a slot before `c`. -/
theorem fwd_succ_of_lt {a b c : Nat} (ha : a < n) (hb : b < n) (hc : c < n)
    (hlt : fwd n a b < fwd n a c) : fwd n a ((b + 1) % n) = fwd n a b + 1 := by
  rcases succ_mod_cases hb with ⟨h, hlt'⟩ | ⟨h, hlt'⟩ <;> rw [h] <;> unfold fwd at * <;>
    split_ifs at * <;> omega

/-- From the slot after `a`, one step less, unless `b` is `a`. -/
theorem fwd_succ_left {a b : Nat} (ha : a < n) (hb : b < n) (hne : b ≠ a) :
    fwd n ((a + 1) % n) b + 1 = fwd n a b := by
  rcases succ_mod_cases ha with ⟨h, hlt⟩ | ⟨h, hlt⟩ <;> rw [h] <;> unfold fwd <;> split_ifs <;>
    omega

/-- A slot on the way from `h` to `k`, where `h` is on the way from `a` to `k`, is on the way from
`a` to `k`. -/
theorem fwd_le_of_le {a h j k : Nat} (ha : a < n) (hh : h < n) (hj : j < n) (hk : k < n)
    (hah : fwd n a h ≤ fwd n a k) (hhj : fwd n h j ≤ fwd n h k) : fwd n a j ≤ fwd n a k := by
  unfold fwd at *
  split_ifs at * <;> omega

/-- A home that is not strictly after the hole `h` and at or before `x` lies behind `h`: `h` is on
the way from it to `x`. -/
theorem fwd_le_of_not_between {h i x : Nat} (hh : h < n) (hi : i < n)
    (hout : ¬(0 < fwd n h i ∧ fwd n h i ≤ fwd n h x)) : fwd n i h ≤ fwd n i x := by
  unfold fwd at *
  split_ifs at * <;> omega

/-- A home strictly after `h` and at or before `k` does not have `h` on its way to `k`. -/
theorem not_fwd_le_of_between {h i k : Nat} (hi : i < n) (hk : k < n)
    (hpos : 0 < fwd n h i) (hle : fwd n h i ≤ fwd n h k) : ¬fwd n i h ≤ fwd n i k := by
  unfold fwd at *
  split_ifs at * <;> omega

/-- The comparison of indices unwrapped past `h` that backward-shift deletion makes. -/
theorem unwrapped_iff {h i x : Nat} (hh : h < n) (hx : x < n) :
    ((if i < h then i + n else i) ≤ h ∨
        (if i < h then i + n else i) > (if x < h then x + n else x)) ↔
      ¬(0 < fwd n h i ∧ fwd n h i ≤ fwd n h x) := by
  unfold fwd
  split_ifs <;> omega

end Fwd

/-! ## Probe-closed tables -/

/-- What backward-shift deletion keeps on its walk: the hole and the last slot passed, `x`, are
taken, the table is probe-closed, and each element passed over since the hole has its home
strictly after the hole. -/
structure ShiftInv (d : Nat → α) (hole x : Nat) : Prop where
  hole_lt : hole < n
  x_lt : x < n
  probe : ProbeInv n free home d
  hole_taken : free (d hole) = false
  x_taken : free (d x) = false
  passed : ∀ j < n, 0 < fwd n hole j → fwd n hole j ≤ fwd n hole x →
    0 < fwd n hole (home (d j)) ∧ fwd n hole (home (d j)) ≤ fwd n hole j

section Probe

variable {n free home}

/-- Putting a taken element into a free slot keeps the table probe-closed when every other slot
on the way from the element's home is taken. -/
theorem probeInv_update {d : Nat → α} {f : Nat} {e : α} (hinv : ProbeInv n free home d)
    (hf : free (d f) = true) (he : free e = false)
    (hpath : ∀ j < n, fwd n (home e) j ≤ fwd n (home e) f → j ≠ f → free (d j) = false) :
    ProbeInv n free home (Function.update d f e) := by
  intro k hk hkt j hj hjk
  by_cases hkf : k = f
  · subst hkf
    rw [Function.update_self] at hjk
    by_cases hjf : j = k
    · rwa [hjf, Function.update_self]
    · rw [Function.update_of_ne hjf]
      exact hpath j hj hjk hjf
  · rw [Function.update_of_ne hkf] at hkt hjk
    -- the free slot `f` is on no element's way
    have hjf : j ≠ f := by
      rintro rfl
      rw [hinv k hk hkt j hj hjk] at hf
      cases hf
    rw [Function.update_of_ne hjf]
    exact hinv k hk hkt j hj hjk

theorem ShiftInv.start {d : Nat → α} {i : Nat} (hinv : ProbeInv n free home d) (hi : i < n)
    (ht : free (d i) = false) : ShiftInv n free home d i i where
  hole_lt := hi
  x_lt := hi
  probe := hinv
  hole_taken := ht
  x_taken := ht
  passed j _ hpos hle := by
    rw [fwd_self] at hle
    omega

/-- The next element has its home strictly after the hole: it stays, and the walk passes it. -/
theorem ShiftInv.skip {d : Nat → α} {h x : Nat} (hs : ShiftInv n free home d h x)
    (hnext : free (d ((x + 1) % n)) = false)
    (hin : 0 < fwd n h (home (d ((x + 1) % n))) ∧
      fwd n h (home (d ((x + 1) % n))) ≤ fwd n h ((x + 1) % n)) :
    ShiftInv n free home d h ((x + 1) % n) := by
  have hn : 0 < n := by have := hs.hole_lt; omega
  have hnl : (x + 1) % n < n := Nat.mod_lt _ hn
  -- the walk has not come back to the hole
  have hne : (x + 1) % n ≠ h := by
    rintro heq
    rw [heq, fwd_self] at hin
    omega
  have hsucc := fwd_succ hs.hole_lt hs.x_lt hne
  refine ⟨hs.hole_lt, hnl, hs.probe, hs.hole_taken, hnext, fun j hj hpos hle => ?_⟩
  rcases Nat.lt_or_ge (fwd n h x) (fwd n h j) with hgt | hle'
  · have hj' : j = (x + 1) % n := fwd_inj hs.hole_lt hj hnl (by omega)
    subst hj'
    exact hin
  · exact hs.passed j hj hpos hle'

variable (hhome : ∀ e, home e < n)
include hhome

/-- The next element's home is not strictly after the hole: it moves into the hole, and its old
slot becomes the hole. -/
theorem ShiftInv.move {d : Nat → α} {h x : Nat} (hs : ShiftInv n free home d h x)
    (hnext : free (d ((x + 1) % n)) = false)
    (hout : ¬(0 < fwd n h (home (d ((x + 1) % n))) ∧
      fwd n h (home (d ((x + 1) % n))) ≤ fwd n h ((x + 1) % n))) :
    ShiftInv n free home (Function.update d h (d ((x + 1) % n))) ((x + 1) % n) ((x + 1) % n) := by
  have hn : 0 < n := by have := hs.hole_lt; omega
  set y := (x + 1) % n with hy
  have hyl : y < n := Nat.mod_lt _ hn
  have hhy : Function.update d h (d y) y = d y := by
    by_cases hyh : y = h
    · rw [hyh, Function.update_self]
    · rw [Function.update_of_ne hyh]
  -- the hole is on the moved element's way to its old slot
  have hway : fwd n (home (d y)) h ≤ fwd n (home (d y)) y :=
    fwd_le_of_not_between hs.hole_lt (hhome _) hout
  have hprobe : ProbeInv n free home (Function.update d h (d y)) := by
    intro k hk hkt j hj hjk
    by_cases hkh : k = h
    · subst hkh
      rw [Function.update_self] at hjk
      by_cases hjk' : j = k
      · rw [hjk', Function.update_self]
        exact hnext
      · rw [Function.update_of_ne hjk']
        exact hs.probe y hyl hnext j hj (le_trans hjk hway)
    · rw [Function.update_of_ne hkh] at hkt hjk
      by_cases hjh : j = h
      · rw [hjh, Function.update_self]
        exact hnext
      · rw [Function.update_of_ne hjh]
        exact hs.probe k hk hkt j hj hjk
  refine ⟨hyl, hyl, hprobe, by rw [hhy]; exact hnext, by rw [hhy]; exact hnext, ?_⟩
  intro j _ hpos hle
  rw [fwd_self] at hle
  omega

/-- When the walk meets a free slot, emptying the hole leaves a probe-closed table. -/
theorem ShiftInv.probeInv_clear {d : Nat → α} {h x : Nat} {empty : α}
    (hs : ShiftInv n free home d h x) (hfree : free (d ((x + 1) % n)) = true)
    (hempty : free empty = true) : ProbeInv n free home (Function.update d h empty) := by
  have hn : 0 < n := by have := hs.hole_lt; omega
  have hyl : (x + 1) % n < n := Nat.mod_lt _ hn
  have hyh : (x + 1) % n ≠ h := by
    rintro heq
    rw [heq, hs.hole_taken] at hfree
    cases hfree
  intro k hk hkt j hj hjk
  have hkh : k ≠ h := by
    rintro rfl
    rw [Function.update_self, hempty] at hkt
    cases hkt
  rw [Function.update_of_ne hkh] at hkt hjk
  have hjh : j ≠ h := by
    rintro rfl
    -- the way from the home of `d k` to `k` runs through the hole and stops before the free slot,
    -- so `k` was passed over, and its home is after the hole: the way cannot run through it
    have hlt : fwd n j k < fwd n j ((x + 1) % n) := by
      by_contra hge
      have hon := fwd_le_of_le (hhome _) hs.hole_lt hyl hk hjk (Nat.le_of_not_lt hge)
      rw [hs.probe k hk hkt _ hyl hon] at hfree
      cases hfree
    rw [fwd_succ hs.hole_lt hs.x_lt hyh] at hlt
    have hpos : 0 < fwd n j k := by
      rcases Nat.eq_zero_or_pos (fwd n j k) with h0 | h0
      · exact absurd ((fwd_eq_zero_iff hs.hole_lt).1 h0).symm hkh
      · exact h0
    obtain ⟨hp, hl⟩ := hs.passed k hk hpos (by omega)
    exact not_fwd_le_of_between (hhome _) hk hp hl hjk
  rw [Function.update_of_ne hjh]
  exact hs.probe k hk hkt j hj hjk

end Probe

/-! ## What the table holds -/

section Contents

variable {n free}

theorem contents_update_of_free {d : Nat → α} {f : Nat} {e : α} (hf : f < n)
    (hfree : free (d f) = true) (he : free e = false) :
    contents n free (Function.update d f e) = contents n free d + {e} := by
  have hmem : f ∈ Finset.range n := Finset.mem_range.2 hf
  unfold contents
  rw [← Finset.add_sum_erase _ _ hmem, ← Finset.add_sum_erase _ _ hmem, Function.update_self,
    if_pos he, if_neg (by simp [hfree]), zero_add, add_comm]
  congr 1
  refine Finset.sum_congr rfl fun i hi => ?_
  rw [Function.update_of_ne (Finset.ne_of_mem_erase hi)]

theorem contents_eq_contentsExcept_add {d : Nat → α} {h : Nat} (hh : h < n)
    (ht : free (d h) = false) : contents n free d = contentsExcept n free d h + {d h} := by
  have hmem : h ∈ Finset.range n := Finset.mem_range.2 hh
  unfold contents contentsExcept
  rw [← Finset.add_sum_erase _ _ hmem, ← Finset.add_sum_erase _ _ hmem, if_pos ht,
    if_neg (by simp), zero_add, add_comm]
  congr 1
  refine Finset.sum_congr rfl fun i hi => ?_
  simp [Finset.ne_of_mem_erase hi]

/-- Moving the element at `y` into the hole `h` and making `y` the hole keeps what the table
holds. -/
theorem contentsExcept_move {d : Nat → α} {h y : Nat} (hh : h < n) (hy : y < n) (hyh : y ≠ h)
    (ht : free (d y) = false) :
    contentsExcept n free (Function.update d h (d y)) y = contentsExcept n free d h := by
  have hmh : h ∈ Finset.range n := Finset.mem_range.2 hh
  have hmy : y ∈ (Finset.range n).erase h := Finset.mem_erase.2 ⟨hyh, Finset.mem_range.2 hy⟩
  unfold contentsExcept
  rw [← Finset.add_sum_erase (Finset.range n) _ hmh, ← Finset.add_sum_erase (Finset.range n) _ hmh,
    ← Finset.add_sum_erase ((Finset.range n).erase h) _ hmy,
    ← Finset.add_sum_erase ((Finset.range n).erase h) _ hmy, Function.update_self,
    Function.update_of_ne hyh, if_pos ⟨Ne.symm hyh, ht⟩, if_neg (by simp), if_neg (by simp),
    if_pos ⟨hyh, ht⟩, zero_add, zero_add]
  congr 1
  refine Finset.sum_congr rfl fun i hi => ?_
  have hiy := Finset.ne_of_mem_erase hi
  have hih := Finset.ne_of_mem_erase (Finset.mem_of_mem_erase hi)
  simp [hiy, hih]

theorem contents_clear {d : Nat → α} {h : Nat} {empty : α} (hh : h < n)
    (hempty : free empty = true) :
    contents n free (Function.update d h empty) = contentsExcept n free d h := by
  have hmem : h ∈ Finset.range n := Finset.mem_range.2 hh
  unfold contents contentsExcept
  rw [← Finset.add_sum_erase _ _ hmem, ← Finset.add_sum_erase _ _ hmem, Function.update_self,
    if_neg (by simp [hempty]), if_neg (by simp)]
  congr 1
  refine Finset.sum_congr rfl fun i hi => ?_
  simp [Finset.ne_of_mem_erase hi]

end Contents

end LinearProbing
