import Art.Runtime.IndirectReferenceTable

/-!
# Segments and holes of the indirect reference table

What a thread's local references are for is a stack of frames, each holding the references made
in it and not yet deleted (`LocalFrames`).  The table keeps frame `k` in the entries between two
saved cookies, and `Segment` says how: its live entries are exactly the frame's references, its
top entry is live, and a hole count the table trusts for it is its number of null entries.  Every
call keeps `Segments`, that relation for all frames at once (`traceStep_keeps`), so along any
run from a fresh table:

* after `RecoverHoles` the hole count is the number of null entries of the current segment;
* the top entry of the current segment is live;
* `Add` fills the highest hole when there is one and otherwise the entry at the top, which may
  still hold a reference of a popped frame;
* `Remove` succeeds exactly for the references of the current frame and nulls only their entry;
* `Get` returns the object of every reference of every frame.
-/

namespace Art

open IndirectReferenceTable

variable {α : Type}

section Count

variable (table : Nat → IrtEntry α)

@[simp]
theorem countNullEntries_self (lo : Nat) : countNullEntries table lo lo = 0 := by
  simp [countNullEntries]

theorem countNullEntries_add {lo mid hi : Nat} (h₁ : lo ≤ mid) (h₂ : mid ≤ hi) :
    countNullEntries table lo hi = countNullEntries table lo mid + countNullEntries table mid hi := by
  unfold countNullEntries
  have hsplit : List.range' lo (hi - lo) =
      List.range' lo (mid - lo) ++ List.range' mid (hi - mid) := by
    rw [show hi - lo = (mid - lo) + (hi - mid) by omega, ← List.range'_append, Nat.one_mul,
      Nat.add_sub_cancel' h₁]
  rw [hsplit, List.countP_append]

theorem countNullEntries_succ {lo hi : Nat} (h : lo ≤ hi) :
    countNullEntries table lo (hi + 1) =
      countNullEntries table lo hi + if (table hi).reference.isNone then 1 else 0 := by
  rw [countNullEntries_add table h (Nat.le_add_right hi 1)]
  simp [countNullEntries, List.countP_singleton]

theorem countNullEntries_congr {table' : Nat → IrtEntry α} {lo hi : Nat}
    (h : ∀ i, lo ≤ i → i < hi → (table' i).reference = (table i).reference) :
    countNullEntries table' lo hi = countNullEntries table lo hi := by
  unfold countNullEntries
  apply List.countP_congr
  intro i hi'
  rw [List.mem_range'_1] at hi'
  rw [h i hi'.1 (by omega)]

theorem countNullEntries_eq_zero_iff {lo hi : Nat} :
    countNullEntries table lo hi = 0 ↔ ∀ i, lo ≤ i → i < hi → (table i).reference.isSome := by
  unfold countNullEntries
  rw [List.countP_eq_zero]
  constructor
  · intro h i hlo hhi
    have := h i (List.mem_range'_1.2 ⟨hlo, by omega⟩)
    simpa [Option.isNone_iff_eq_none, Option.isSome_iff_ne_none] using this
  · intro h i hi
    rw [List.mem_range'_1] at hi
    simpa [Option.isNone_iff_eq_none, Option.isSome_iff_ne_none] using h i hi.1 (by omega)

theorem exists_null_of_countNullEntries_pos {lo hi : Nat} (h : 0 < countNullEntries table lo hi) :
    ∃ i, lo ≤ i ∧ i < hi ∧ (table i).reference = none := by
  unfold countNullEntries at h
  obtain ⟨i, hmem, hnull⟩ := List.countP_pos_iff.1 h
  rw [List.mem_range'_1] at hmem
  exact ⟨i, hmem.1, by omega, Option.isNone_iff_eq_none.1 hnull⟩

/-- Writing an entry outside a range leaves its count. -/
theorem countNullEntries_update_of_not_mem {lo hi j : Nat} (hj : j < lo ∨ hi ≤ j)
    (e : IrtEntry α) :
    countNullEntries (Function.update table j e) lo hi = countNullEntries table lo hi :=
  countNullEntries_congr table fun i h₁ h₂ => by rw [Function.update_of_ne (by omega)]

/-- Writing entry `j` of a range changes its count by what the entry was and what it becomes. -/
theorem countNullEntries_update {lo hi j : Nat} (hlo : lo ≤ j) (hj : j < hi) (e : IrtEntry α) :
    countNullEntries (Function.update table j e) lo hi +
        (if (table j).reference.isNone then 1 else 0) =
      countNullEntries table lo hi + if e.reference.isNone then 1 else 0 := by
  have hbelow : countNullEntries (Function.update table j e) lo j = countNullEntries table lo j :=
    countNullEntries_update_of_not_mem table (.inr (Nat.le_refl j)) e
  have habove : countNullEntries (Function.update table j e) (j + 1) hi =
      countNullEntries table (j + 1) hi :=
    countNullEntries_update_of_not_mem table (.inl (Nat.lt_add_one j)) e
  have hone : ∀ tb : Nat → IrtEntry α,
      countNullEntries tb j (j + 1) = if (tb j).reference.isNone then 1 else 0 := fun tb => by
    rw [countNullEntries_succ tb (Nat.le_refl j), countNullEntries_self, Nat.zero_add]
  rw [countNullEntries_add (Function.update table j e) hlo (Nat.le_of_lt hj),
    countNullEntries_add table hlo (Nat.le_of_lt hj),
    countNullEntries_add (Function.update table j e) (Nat.le_add_right j 1) hj,
    countNullEntries_add table (Nat.le_add_right j 1) hj, hbelow, habove, hone, hone,
    Function.update_self]
  omega

end Count

section Scan

variable {table : Nat → IrtEntry α}

/-- The scan for a hole from `index` down stops at a null entry, no lower than any null entry
at or under `index`. -/
theorem scanForHole_spec {j : Nat} (hnull : (table j).reference = none) :
    ∀ {index}, j ≤ index → j ≤ scanForHole table index ∧ scanForHole table index ≤ index ∧
      (table (scanForHole table index)).reference = none
  | 0, hj => by
    obtain rfl : j = 0 := Nat.le_zero.1 hj
    exact ⟨Nat.le_refl 0, Nat.le_refl 0, hnull⟩
  | index + 1, hj => by
    unfold scanForHole
    split
    · rename_i htop
      exact ⟨hj, Nat.le_refl _, Option.isNone_iff_eq_none.1 htop⟩
    · rename_i htop
      have hne : j ≠ index + 1 := by
        rintro rfl
        simp [hnull] at htop
      obtain ⟨hlo, hhi, hk⟩ := scanForHole_spec hnull (show j ≤ index by omega)
      exact ⟨hlo, Nat.le_succ_of_le hhi, hk⟩

end Scan

section Collapse

variable {table : Nat → IrtEntry α} {bottomIndex : Nat}

/-- The loop of `Remove` over the holes under a removed top entry: started above `top` with the
count of nulls of `[bottomIndex, top)`, it stops at a top index over null entries only, with the
count of nulls under it, at the bottom or over a live entry. -/
theorem collapseHoles_spec {top numHoles : Nat} (hb : bottomIndex ≤ top)
    (hcount : numHoles = countNullEntries table bottomIndex top) :
    let r := collapseHoles table bottomIndex (top + 1) numHoles
    bottomIndex ≤ r.1 ∧ r.1 ≤ top ∧ r.2 = countNullEntries table bottomIndex r.1 ∧
      (r.1 = bottomIndex ∨ (table (r.1 - 1)).reference.isSome) ∧
      ∀ i, r.1 ≤ i → i < top → (table i).reference = none := by
  -- one iteration per entry passed over, from the old top down
  induction top generalizing numHoles with
  | zero =>
    obtain rfl : bottomIndex = 0 := Nat.le_zero.1 hb
    simp [collapseHoles, hcount]
  | succ below ih =>
    intro r
    unfold r collapseHoles
    split
    · rename_i hloop
      split
      · rename_i hlive
        exact ⟨hb, Nat.le_refl _, hcount, .inr hlive, fun i h₁ h₂ => absurd h₂ (by omega)⟩
      · rename_i hnull
        have hnull' : (table below).reference.isNone := by simpa using hnull
        have hcount' : numHoles - 1 = countNullEntries table bottomIndex below := by
          rw [hcount, countNullEntries_succ table (by omega)]
          simp [hnull']
        obtain ⟨h₁, h₂, h₃, h₄, h₅⟩ := ih (by omega) hcount'
        refine ⟨h₁, by omega, h₃, h₄, fun i hi₁ hi₂ => ?_⟩
        rcases Nat.lt_or_ge i below with hi | hi
        · exact h₅ i hi₁ hi
        · obtain rfl : i = below := by omega
          exact Option.isNone_iff_eq_none.1 hnull'
    · rename_i hstop
      refine ⟨hb, Nat.le_refl _, hcount, ?_, fun i h₁ h₂ => absurd h₂ (by omega)⟩
      by_cases hbot : below + 1 = bottomIndex
      · exact .inl hbot
      · have hzero : numHoles = 0 := by omega
        rw [hzero, eq_comm, countNullEntries_eq_zero_iff] at hcount
        exact .inr (hcount below (by omega) (by omega))

end Collapse

/-- Segment `[lo, hi)` of a table holds the references `refs`: its live entries are exactly
theirs, its top entry is live, and where the last known segment of the table starts inside it,
the hole count is its number of null entries. -/
structure Segment (t : IndirectReferenceTable α) (lo hi : Nat) (refs : List (IndirectRef × α)) :
    Prop where
  le : lo ≤ hi
  top_live : hi = lo ∨ (t.table (hi - 1)).reference.isSome
  mem_iff : ∀ r o, (r, o) ∈ refs ↔
    lo ≤ r.index ∧ r.index < hi ∧ t.table r.index = ⟨r.serial, some o⟩
  holes : lo ≤ t.lastKnownPreviousState.topIndex → t.lastKnownPreviousState.topIndex < hi →
    t.lastKnownPreviousState.topIndex = lo ∧
      t.currentNumHoles = countNullEntries t.table lo hi

namespace Segment

variable {t t' : IndirectReferenceTable α} {lo hi : Nat} {refs : List (IndirectRef × α)}

theorem empty (t : IndirectReferenceTable α) (top : Nat) : Segment t top top [] where
  le := Nat.le_refl top
  top_live := .inl rfl
  mem_iff r o := by
    simp only [List.not_mem_nil, false_iff]
    rintro ⟨h₁, h₂, -⟩
    omega
  holes h₁ h₂ := absurd h₂ (by omega)

/-- A segment stays as it is while its entries do, and the hole count it trusts, none, or its
own count of nulls. -/
theorem frame (h : Segment t lo hi refs) (htable : ∀ i, lo ≤ i → i < hi → t'.table i = t.table i)
    (hholes : t'.lastKnownPreviousState = t.lastKnownPreviousState ∧
        t'.currentNumHoles = t.currentNumHoles ∨
      hi ≤ t'.lastKnownPreviousState.topIndex ∨
      t'.lastKnownPreviousState.topIndex = lo ∧
        t'.currentNumHoles = countNullEntries t'.table lo hi) :
    Segment t' lo hi refs where
  le := h.le
  top_live := by
    rcases h.top_live with hempty | hlive
    · exact .inl hempty
    · rcases Nat.eq_or_lt_of_le h.le with hempty | hlt
      · exact .inl hempty.symm
      · exact .inr (by rw [htable _ (by omega) (by omega)]; exact hlive)
  mem_iff r o := by
    rw [h.mem_iff]
    constructor
    · rintro ⟨h₁, h₂, h₃⟩
      exact ⟨h₁, h₂, by rw [htable _ h₁ h₂]; exact h₃⟩
    · rintro ⟨h₁, h₂, h₃⟩
      exact ⟨h₁, h₂, by rw [← htable _ h₁ h₂]; exact h₃⟩
  holes h₁ h₂ := by
    rcases hholes with ⟨hlkp, hnum⟩ | hge | hrecount
    · rw [hlkp] at h₁ h₂ ⊢
      obtain ⟨hlo, hcount⟩ := h.holes h₁ h₂
      refine ⟨hlo, ?_⟩
      rw [hnum, hcount]
      exact (countNullEntries_congr _ fun i hi₁ hi₂ => by rw [htable i hi₁ hi₂]).symm
    · exact absurd h₂ (by omega)
    · exact hrecount

/-- The references of a segment are exactly its live entries, each with its serial. -/
theorem mem_iff_live (h : Segment t lo hi refs) (iref : IndirectRef) :
    (∃ o, (iref, o) ∈ refs) ↔ lo ≤ iref.index ∧ iref.index < hi ∧
      (t.table iref.index).reference.isSome ∧ t.toIndirectRef iref.index = iref := by
  simp only [h.mem_iff, toIndirectRef]
  constructor
  · rintro ⟨o, h₁, h₂, h₃⟩
    rw [h₃]
    exact ⟨h₁, h₂, rfl, rfl⟩
  · rintro ⟨h₁, h₂, h₃, h₄⟩
    obtain ⟨o, ho⟩ := Option.isSome_iff_exists.1 h₃
    refine ⟨o, h₁, h₂, ?_⟩
    rw [← h₄] at ho ⊢
    cases hentry : t.table iref.index
    simp_all

end Segment

/-- `RecoverHoles` with the cookie of a segment leaves the table trusting the count of its null
entries. -/
theorem recoverHoles_spec {t : IndirectReferenceTable α} {cookie : IRTSegmentState}
    {refs : List (IndirectRef × α)} (h : Segment t cookie.topIndex t.segmentState.topIndex refs) :
    t.recoverHoles cookie = { t with
      currentNumHoles := countNullEntries t.table cookie.topIndex t.segmentState.topIndex
      lastKnownPreviousState := cookie } := by
  unfold recoverHoles
  split
  · rfl
  · rename_i hkept
    -- the last known segment starts inside this one: there it is this one
    obtain ⟨hlkp, hcount⟩ := h.holes (by omega) (by omega)
    have hcookie : cookie = t.lastKnownPreviousState := by
      show (⟨cookie.topIndex⟩ : IRTSegmentState) = ⟨t.lastKnownPreviousState.topIndex⟩
      rw [hlkp]
    rw [← hcount, hcookie]

attribute [ext] IndirectRef

@[simp]
theorem IrtEntry.reference_add (e : IrtEntry α) (obj : α) : (e.add obj).reference = some obj := rfl

/-- Making room changes the capacity only. -/
theorem makeRoom_eq_ok {t t₀ : IndirectReferenceTable α} (h : t.makeRoom = .ok t₀) :
    ∃ maxEntries, t₀ = { t with maxEntries } := by
  unfold makeRoom at h
  split at h
  · split at h
    · cases h
    · split at h
      · cases h
      · split at h
        · rename_i t₁ hresize
          cases h
          unfold resize at hresize
          split at hresize
          · cases hresize
          · cases hresize
            exact ⟨_, rfl⟩
        · cases h
  · cases h
    exact ⟨_, rfl⟩

section Add

variable {t t' : IndirectReferenceTable α} {cookie : IRTSegmentState}
  {refs : List (IndirectRef × α)} {obj : α} {iref : IndirectRef}

/-- What `Add` with the cookie of the current segment does: it writes `obj` into one entry at or
above the cookie and returns that entry's reference, leaving the count of the segment's nulls
trusted; the entry is the highest hole when the segment has one, and otherwise the entry at the
top, which grows by one. -/
theorem add_spec (h : Segment t cookie.topIndex t.segmentState.topIndex refs)
    (hadd : t.add cookie obj = .ok (iref, t')) :
    cookie.topIndex ≤ iref.index ∧
      t'.table = Function.update t.table iref.index ((t.table iref.index).add obj) ∧
      iref.serial = ((t.table iref.index).add obj).serial ∧
      t'.lastKnownPreviousState = cookie ∧
      t'.currentNumHoles = countNullEntries t'.table cookie.topIndex t'.segmentState.topIndex ∧
      if 0 < countNullEntries t.table cookie.topIndex t.segmentState.topIndex then
        iref.index + 1 < t.segmentState.topIndex ∧ (t.table iref.index).reference = none ∧
          t'.segmentState = t.segmentState
      else
        iref.index = t.segmentState.topIndex ∧
          t'.segmentState.topIndex = t.segmentState.topIndex + 1 := by
  unfold add at hadd
  cases hroom : t.makeRoom with
  | error e => simp [hroom] at hadd
  | ok t₀ =>
    obtain ⟨m, rfl⟩ := makeRoom_eq_ok hroom
    have h₀ : Segment { t with maxEntries := m } cookie.topIndex t.segmentState.topIndex refs :=
      h.frame (fun _ _ _ => rfl) (.inl ⟨rfl, rfl⟩)
    simp only [hroom, recoverHoles_spec h₀] at hadd
    split at hadd
    · -- a hole: the scan from under the live top entry finds the highest one
      rename_i hpos
      simp only [Except.ok.injEq, Prod.mk.injEq] at hadd
      obtain ⟨rfl, rfl⟩ := hadd
      obtain ⟨j, hj₁, hj₂, hnull⟩ := exists_null_of_countNullEntries_pos t.table hpos
      have htop : (t.table (t.segmentState.topIndex - 1)).reference.isSome := by
        rcases h.top_live with hempty | hlive
        · rw [hempty, countNullEntries_self] at hpos
          omega
        · exact hlive
      have hj₃ : j ≠ t.segmentState.topIndex - 1 := by
        rintro rfl
        simp [hnull] at htop
      obtain ⟨hk₁, hk₂, hk₃⟩ :=
        scanForHole_spec hnull (show j ≤ t.segmentState.topIndex - 2 by omega)
      have hcount := countNullEntries_update t.table (Nat.le_trans hj₁ hk₁)
        (show scanForHole t.table (t.segmentState.topIndex - 2) < t.segmentState.topIndex by omega)
        ((t.table (scanForHole t.table (t.segmentState.topIndex - 2))).add obj)
      simp only [hk₃, Option.isNone_none, IrtEntry.reference_add, Option.isNone_some,
        Bool.false_eq_true, ↓reduceIte, Nat.add_zero] at hcount
      simp only [toIndirectRef, Function.update_self, if_pos hpos]
      exact ⟨Nat.le_trans hj₁ hk₁, trivial, trivial, trivial, by omega, by omega, hk₃, trivial⟩
    · -- no hole: the entry at the top
      rename_i hzero
      simp only [Except.ok.injEq, Prod.mk.injEq] at hadd
      obtain ⟨rfl, rfl⟩ := hadd
      have hnull : countNullEntries t.table cookie.topIndex t.segmentState.topIndex = 0 := by
        omega
      have hbelow : countNullEntries (Function.update t.table t.segmentState.topIndex
          ((t.table t.segmentState.topIndex).add obj)) cookie.topIndex t.segmentState.topIndex =
          countNullEntries t.table cookie.topIndex t.segmentState.topIndex :=
        countNullEntries_update_of_not_mem t.table (.inr (Nat.le_refl _)) _
      simp only [toIndirectRef, Function.update_self, if_neg hzero]
      refine ⟨h.le, trivial, trivial, trivial, ?_, trivial, trivial⟩
      rw [countNullEntries_succ _ h.le, hbelow, hnull, Function.update_self]
      simp

/-- After `Add` the current segment holds the new reference beside its old ones. -/
theorem add_segment (h : Segment t cookie.topIndex t.segmentState.topIndex refs)
    (hadd : t.add cookie obj = .ok (iref, t')) :
    Segment t' cookie.topIndex t'.segmentState.topIndex ((iref, obj) :: refs) := by
  obtain ⟨hlo, htable, hserial, hlkp, hholes, hcase⟩ := add_spec h hadd
  have hentry : t'.table iref.index = ⟨iref.serial, some obj⟩ := by
    rw [htable, Function.update_self, hserial]
    rfl
  have hother : ∀ j, j ≠ iref.index → t'.table j = t.table j := fun j hj => by
    rw [htable, Function.update_of_ne hj]
  -- the written entry held none of the segment's references, and the top moved past it only
  obtain ⟨hfresh, hbelow, htop_iff, htop⟩ : (∀ r o, (r, o) ∈ refs → r.index ≠ iref.index) ∧
      iref.index < t'.segmentState.topIndex ∧
      (∀ j, j ≠ iref.index →
        (j < t'.segmentState.topIndex ↔ j < t.segmentState.topIndex)) ∧
      (t'.table (t'.segmentState.topIndex - 1)).reference.isSome := by
    split at hcase
    · rename_i hpos
      obtain ⟨hlt, hnull, hstate⟩ := hcase
      have hlive : (t.table (t.segmentState.topIndex - 1)).reference.isSome := by
        rcases h.top_live with hempty | hlive
        · rw [hempty, countNullEntries_self] at hpos
          omega
        · exact hlive
      refine ⟨fun r o hr hi => ?_, by rw [hstate]; omega, fun j _ => by rw [hstate], ?_⟩
      · have := congrArg IrtEntry.reference ((h.mem_iff r o).1 hr).2.2
        rw [hi, hnull] at this
        cases this
      · rw [hstate, hother _ (by omega)]
        exact hlive
    · obtain ⟨hi, hstate⟩ := hcase
      refine ⟨fun r o hr => ?_, by omega, fun j hj => by omega, ?_⟩
      · have := ((h.mem_iff r o).1 hr).2.1
        omega
      · rw [hstate, Nat.add_sub_cancel, ← hi, hentry]
        rfl
  refine ⟨by omega, .inr htop, fun r o => ?_, fun _ _ => ⟨by rw [hlkp], hholes⟩⟩
  · by_cases hr : r.index = iref.index
    · have hnot : (r, o) ∉ refs := fun hmem => hfresh r o hmem hr
      simp only [List.mem_cons, Prod.mk.injEq, hnot, or_false, hr, hentry, IrtEntry.mk.injEq,
        Option.some.injEq, IndirectRef.ext_iff]
      constructor
      · rintro ⟨⟨-, hs⟩, ho⟩
        exact ⟨hlo, hbelow, hs.symm, ho.symm⟩
      · rintro ⟨-, -, hs, ho⟩
        exact ⟨⟨trivial, hs.symm⟩, ho.symm⟩
    · have hne : r ≠ iref := fun heq => hr (by rw [heq])
      simp only [List.mem_cons, Prod.mk.injEq, hne, false_and, false_or, h.mem_iff,
        hother _ hr, htop_iff _ hr]

end Add

section Remove

variable {t : IndirectReferenceTable α} {cookie : IRTSegmentState}
  {refs : List (IndirectRef × α)} {iref : IndirectRef}

/-- What `Remove` with the cookie of the current segment can do: fail for a reference that is
not one of the segment's, with the table as it was or with its holes recounted, or null the
entry of one, lowering the top over the holes under it when it is the top entry. -/
theorem remove_cases (iref : IndirectRef) (h : Segment t cookie.topIndex t.segmentState.topIndex refs) :
    let top := t.segmentState.topIndex
    let numHoles := countNullEntries t.table cookie.topIndex top
    let t₁ : IndirectReferenceTable α :=
      { t with currentNumHoles := numHoles, lastKnownPreviousState := cookie }
    let table := Function.update t.table iref.index ⟨(t.table iref.index).serial, none⟩
    let live := ∃ o, (iref, o) ∈ refs
    (¬live ∧ (t.remove cookie iref = (false, t) ∨ t.remove cookie iref = (false, t₁))) ∨
    (live ∧ iref.index + 1 = top ∧ numHoles = 0 ∧
      t.remove cookie iref = (true, { t₁ with table, segmentState := ⟨top - 1⟩ })) ∨
    (live ∧ iref.index + 1 = top ∧ numHoles ≠ 0 ∧
      t.remove cookie iref = (true, { t₁ with
        table
        currentNumHoles := (collapseHoles table cookie.topIndex top numHoles).2
        segmentState := ⟨(collapseHoles table cookie.topIndex top numHoles).1⟩ })) ∨
    (live ∧ iref.index + 1 < top ∧
      t.remove cookie iref = (true, { t₁ with table, currentNumHoles := numHoles + 1 })) := by
  have hlive := h.mem_iff_live iref
  simp only [toIndirectRef] at hlive
  dsimp only
  unfold remove
  simp only [checkEntry, toIndirectRef, recoverHoles_spec h]
  -- outside the segment: nothing is recovered
  split
  · exact .inl ⟨fun hl => by have := (hlive.1 hl).1; omega, .inl rfl⟩
  split
  · exact .inl ⟨fun hl => by have := (hlive.1 hl).2.1; omega, .inl rfl⟩
  rename_i hbelow habove
  split
  · -- the top entry, which is live
    rename_i htopentry
    have htoplive : (t.table iref.index).reference.isSome := by
      rcases h.top_live with hempty | hl
      · omega
      · rw [htopentry]; exact hl
    split
    · rename_i hcheck
      refine .inl ⟨fun hl => ?_, .inr rfl⟩
      have := (hlive.1 hl).2.2.2
      simp [this] at hcheck
    · rename_i hcheck
      have hl := hlive.2 ⟨by omega, by omega, htoplive, by simpa using hcheck⟩
      split
      · exact .inr (.inr (.inl ⟨hl, by omega, by assumption, rfl⟩))
      · exact .inr (.inl ⟨hl, by omega, by omega, rfl⟩)
  · -- an entry under the top
    rename_i hnottop
    split
    · rename_i hnull
      refine .inl ⟨fun hl => ?_, .inr rfl⟩
      have := (hlive.1 hl).2.2.1
      simp_all
    split
    · rename_i hcheck
      refine .inl ⟨fun hl => ?_, .inr rfl⟩
      have := (hlive.1 hl).2.2.2
      simp [this] at hcheck
    · rename_i hnull hcheck
      have hl := hlive.2 ⟨by omega, by omega, Option.isSome_iff_ne_none.2 (by simpa using hnull),
        by simpa using hcheck⟩
      exact .inr (.inr (.inr ⟨hl, by omega, rfl⟩))

/-- Nulling the entry of a reference of the segment and lowering the top over null entries
leaves the segment's other references. -/
theorem Segment.mem_filter_iff (h : Segment t cookie.topIndex t.segmentState.topIndex refs)
    (hcheck : t.toIndirectRef iref.index = iref) {hi : Nat} (hhi : hi ≤ t.segmentState.topIndex)
    (hnull : ∀ j, hi ≤ j → j < t.segmentState.topIndex → j ≠ iref.index →
      (t.table j).reference = none)
    (r : IndirectRef) (o : α) :
    (r, o) ∈ refs.filter (fun p => p.1 ≠ iref) ↔ cookie.topIndex ≤ r.index ∧ r.index < hi ∧
      Function.update t.table iref.index ⟨(t.table iref.index).serial, none⟩ r.index =
        ⟨r.serial, some o⟩ := by
  simp only [List.mem_filter, h.mem_iff, decide_eq_true_eq]
  by_cases hr : r.index = iref.index
  · -- the nulled entry: the reference it held was `iref`
    rw [hr, Function.update_self]
    simp only [IrtEntry.mk.injEq, reduceCtorEq, and_false, and_false, iff_false]
    rintro ⟨⟨-, -, hentry⟩, hne⟩
    apply hne
    rw [← hcheck, IndirectRef.ext_iff]
    exact ⟨hr, by rw [toIndirectRef, hentry]⟩
  · have hne : r ≠ iref := fun heq => hr (by rw [heq])
    rw [Function.update_of_ne hr]
    constructor
    · rintro ⟨⟨h₁, h₂, h₃⟩, -⟩
      refine ⟨h₁, Nat.lt_of_not_le fun hge => ?_, h₃⟩
      have := hnull r.index hge h₂ hr
      rw [h₃] at this
      cases this
    · rintro ⟨h₁, h₂, h₃⟩
      exact ⟨⟨h₁, by omega, h₃⟩, hne⟩

/-- `Remove` succeeds exactly for the references of the current segment. -/
theorem remove_eq_true_iff (h : Segment t cookie.topIndex t.segmentState.topIndex refs) :
    (t.remove cookie iref).1 = true ↔ ∃ o, (iref, o) ∈ refs := by
  rcases remove_cases iref h with
    ⟨hn, hr | hr⟩ | ⟨hl, -, -, hr⟩ | ⟨hl, -, -, hr⟩ | ⟨hl, -, hr⟩ <;> rw [hr]
  · exact ⟨fun hf => absurd hf Bool.false_ne_true, fun hl => absurd hl hn⟩
  · exact ⟨fun hf => absurd hf Bool.false_ne_true, fun hl => absurd hl hn⟩
  all_goals exact ⟨fun _ => hl, fun _ => rfl⟩

/-- A successful `Remove` nulls the entry of the reference and no other; a failed one leaves
every entry. -/
theorem remove_table (h : Segment t cookie.topIndex t.segmentState.topIndex refs) :
    (t.remove cookie iref).2.table = if (t.remove cookie iref).1 then
      Function.update t.table iref.index ⟨(t.table iref.index).serial, none⟩
    else t.table := by
  rcases remove_cases iref h with
    ⟨-, hr | hr⟩ | ⟨-, -, -, hr⟩ | ⟨-, -, -, hr⟩ | ⟨-, -, hr⟩ <;> rw [hr] <;> rfl

/-- After `Remove` the table trusts the hole count it had or the count of the current
segment. -/
theorem remove_holes (iref : IndirectRef) (h : Segment t cookie.topIndex t.segmentState.topIndex refs) :
    let t' := (t.remove cookie iref).2
    t'.lastKnownPreviousState = t.lastKnownPreviousState ∧
        t'.currentNumHoles = t.currentNumHoles ∨
      t'.lastKnownPreviousState = cookie := by
  rcases remove_cases iref h with
    ⟨-, hr | hr⟩ | ⟨-, -, -, hr⟩ | ⟨-, -, -, hr⟩ | ⟨-, -, hr⟩ <;> rw [hr]
  · exact .inl ⟨rfl, rfl⟩
  all_goals exact .inr rfl

/-- After `Remove` the current segment holds the references it held but `iref`. -/
theorem remove_segment (h : Segment t cookie.topIndex t.segmentState.topIndex refs) :
    Segment (t.remove cookie iref).2 cookie.topIndex (t.remove cookie iref).2.segmentState.topIndex
      (refs.filter fun p => p.1 ≠ iref) := by
  have hlive := h.mem_iff_live iref
  -- a reference that is not the segment's is not among its references
  have hkeep : ¬(∃ o, (iref, o) ∈ refs) → ∀ r o,
      (r, o) ∈ refs.filter (fun p => p.1 ≠ iref) ↔ (r, o) ∈ refs := fun hn r o => by
    simp only [List.mem_filter, decide_eq_true_eq, and_iff_left_iff_imp]
    rintro hmem rfl
    exact hn ⟨o, hmem⟩
  rcases remove_cases iref h with
    ⟨hn, hr | hr⟩ | ⟨hl, htop, hzero, hr⟩ | ⟨hl, htop, hpos, hr⟩ | ⟨hl, hunder, hr⟩ <;> rw [hr]
  · exact { h with mem_iff := fun r o => by rw [hkeep hn, h.mem_iff] }
  · refine Segment.frame { h with mem_iff := fun r o => by rw [hkeep hn, h.mem_iff] }
      (fun _ _ _ => rfl) (.inr (.inr ⟨rfl, rfl⟩))
  · -- the top entry, over no hole
    obtain ⟨hlo, -, -, hcheck⟩ := hlive.1 hl
    have hall := (countNullEntries_eq_zero_iff t.table).1 hzero
    have hcount : countNullEntries (Function.update t.table iref.index
        ⟨(t.table iref.index).serial, none⟩) cookie.topIndex iref.index = 0 := by
      rw [countNullEntries_update_of_not_mem t.table (.inr (Nat.le_refl _)),
        countNullEntries_eq_zero_iff]
      exact fun i h₁ h₂ => hall i h₁ (by omega)
    refine ⟨by dsimp only; omega, ?_, ?_, fun _ _ => ⟨rfl, ?_⟩⟩
    · by_cases hempty : t.segmentState.topIndex - 1 = cookie.topIndex
      · exact .inl hempty
      · refine .inr ?_
        dsimp only
        rw [Function.update_of_ne (by omega)]
        exact hall _ (by omega) (by omega)
    · exact fun r o => by
        rw [Segment.mem_filter_iff h hcheck (show iref.index ≤ t.segmentState.topIndex by omega) (fun j _ _ _ => by omega)]
        dsimp only
        rw [show t.segmentState.topIndex - 1 = iref.index by omega]
    · dsimp only
      rw [show t.segmentState.topIndex - 1 = iref.index by omega, hcount, hzero]
  · -- the top entry over holes: the top comes down over them
    obtain ⟨hlo, -, hsome, hcheck⟩ := hlive.1 hl
    have hcount : countNullEntries t.table cookie.topIndex (iref.index + 1) =
        countNullEntries (Function.update t.table iref.index
          ⟨(t.table iref.index).serial, none⟩) cookie.topIndex iref.index := by
      rw [countNullEntries_succ t.table hlo,
        countNullEntries_update_of_not_mem t.table (.inr (Nat.le_refl _))]
      simp [Option.isNone_iff_eq_none, Option.isSome_iff_ne_none.1 hsome]
    rw [← htop]
    dsimp only
    obtain ⟨h₁, h₂, h₃, h₄, h₅⟩ := collapseHoles_spec hlo hcount
    refine ⟨h₁, h₄, fun r o => ?_, fun _ _ => ⟨rfl, h₃⟩⟩
    refine Segment.mem_filter_iff h hcheck (by omega) (fun j hj₁ hj₂ hj₃ => ?_) r o
    have := h₅ j hj₁ (by omega)
    rwa [Function.update_of_ne hj₃] at this
  · -- an entry under the top: a new hole
    obtain ⟨hlo, -, hsome, hcheck⟩ := hlive.1 hl
    have hcount := countNullEntries_update t.table hlo
      (show iref.index < t.segmentState.topIndex by omega) ⟨(t.table iref.index).serial, none⟩
    simp only [Option.isNone_none, Option.isNone_iff_eq_none, Option.isSome_iff_ne_none.1 hsome,
      ↓reduceIte, Nat.add_zero] at hcount
    refine ⟨h.le, ?_, fun r o => ?_, fun _ _ => ⟨rfl, ?_⟩⟩
    · rcases h.top_live with hempty | hlivetop
      · omega
      · exact .inr (by dsimp only; rw [Function.update_of_ne (by omega)]; exact hlivetop)
    · exact Segment.mem_filter_iff h hcheck (Nat.le_refl _) (fun j hj₁ hj₂ _ => by omega) r o
    · exact hcount.symm

end Remove

/-- What a thread's local references are for: a stack of frames, innermost first, each with the
references made in it and not deleted, and their objects. -/
abbrev LocalFrames (α : Type) := List (List (IndirectRef × α))

namespace LocalFrames

/-- A new reference to `obj`, of the innermost frame. -/
def newLocalRef (frames : LocalFrames α) (iref : IndirectRef) (obj : α) : LocalFrames α :=
  match frames with
  | refs :: outer => ((iref, obj) :: refs) :: outer
  | [] => []

/-- Deleting a reference takes it out of the innermost frame, where it is there. -/
def deleteLocalRef (frames : LocalFrames α) (iref : IndirectRef) : LocalFrames α :=
  match frames with
  | refs :: outer => refs.filter (fun p => p.1 ≠ iref) :: outer
  | [] => []

def pushFrame (frames : LocalFrames α) : LocalFrames α := [] :: frames

/-- Popping discards the innermost frame; the outermost one is never popped. -/
def popFrame (frames : LocalFrames α) : LocalFrames α :=
  match frames with
  | _ :: outer :: rest => outer :: rest
  | frames => frames

end LocalFrames

/-- One call of the environment beside the frames it is meant to keep; the reference a
`NewLocalRef` makes is the one the table chose. -/
def traceStep (s : JNIEnvExt α × LocalFrames α) : Op α → JNIEnvExt α × LocalFrames α
  | .newLocalRef obj =>
    match s.1.newLocalRef obj with
    | .ok (iref, e) => (e, LocalFrames.newLocalRef s.2 iref obj)
    | .error _ => s
  | .deleteLocalRef iref => (s.1.deleteLocalRef iref, LocalFrames.deleteLocalRef s.2 iref)
  | .pushFrame => (s.1.pushFrame, LocalFrames.pushFrame s.2)
  | .popFrame => (s.1.popFrame, LocalFrames.popFrame s.2)

def traceRun (s : JNIEnvExt α × LocalFrames α) (ops : List (Op α)) : JNIEnvExt α × LocalFrames α :=
  ops.foldl traceStep s

/-- The table holds every frame in its segment: the innermost from the cookie to the top, and
each outer one from its saved cookie to the cookie saved after it. -/
def Segments (t : IndirectReferenceTable α) :
    IRTSegmentState → Nat → List IRTSegmentState → LocalFrames α → Prop
  | cookie, top, [], [refs] => Segment t cookie.topIndex top refs
  | cookie, top, saved :: stack, refs :: frames =>
    Segment t cookie.topIndex top refs ∧ Segments t saved cookie.topIndex stack frames
  | _, _, _, _ => False

namespace Segments

variable {t t' : IndirectReferenceTable α}

theorem head : ∀ {cookie top stack} {frames : LocalFrames α},
    Segments t cookie top stack frames →
      ∃ refs outer, frames = refs :: outer ∧ Segment t cookie.topIndex top refs
  | _, _, [], [refs], h => ⟨refs, [], rfl, h⟩
  | _, _, _ :: _, refs :: frames, h => ⟨refs, frames, rfl, h.1⟩
  | _, _, [], [], h | _, _, [], _ :: _ :: _, h | _, _, _ :: _, [], h => False.elim h

/-- The segments under `top` stay while their entries do, and the hole count trusted under `top`
or none. -/
theorem frame : ∀ {cookie top stack} {frames : LocalFrames α},
    Segments t cookie top stack frames → (∀ i, i < top → t'.table i = t.table i) →
    (t'.lastKnownPreviousState = t.lastKnownPreviousState ∧
        t'.currentNumHoles = t.currentNumHoles ∨
      top ≤ t'.lastKnownPreviousState.topIndex) →
    Segments t' cookie top stack frames
  | _, _, [], [_], h, htable, hholes =>
    Segment.frame h (fun i _ hi => htable i hi) (hholes.elim .inl fun hge => .inr (.inl hge))
  | _, _, _ :: _, _ :: _, h, htable, hholes =>
    ⟨Segment.frame h.1 (fun i _ hi => htable i hi) (hholes.elim .inl fun hge => .inr (.inl hge)),
      frame h.2 (fun i hi => htable i (by have := h.1.le; omega))
        (hholes.elim .inl fun hge => .inr (by have := h.1.le; omega))⟩
  | _, _, [], [], h, _, _ | _, _, [], _ :: _ :: _, h, _, _ | _, _, _ :: _, [], h, _, _ =>
    False.elim h

/-- A step on the innermost segment: its new content, with the entries under its cookie kept. -/
theorem replace_head {cookie : IRTSegmentState} {top top' : Nat} {stack : List IRTSegmentState}
    {refs refs' : List (IndirectRef × α)} {frames : LocalFrames α}
    (h : Segments t cookie top stack (refs :: frames))
    (hseg : Segment t' cookie.topIndex top' refs')
    (htable : ∀ i, i < cookie.topIndex → t'.table i = t.table i)
    (hholes : t'.lastKnownPreviousState = t.lastKnownPreviousState ∧
        t'.currentNumHoles = t.currentNumHoles ∨
      cookie.topIndex ≤ t'.lastKnownPreviousState.topIndex) :
    Segments t' cookie top' stack (refs' :: frames) := by
  cases stack with
  | nil =>
    cases frames with
    | nil => exact hseg
    | cons _ _ => exact False.elim h
  | cons saved stack => exact ⟨hseg, frame h.2 htable hholes⟩

/-- Every reference of every frame is live in the table, under the top. -/
theorem mem : ∀ {cookie top stack} {frames : LocalFrames α},
    Segments t cookie top stack frames → ∀ refs ∈ frames, ∀ r o, (r, o) ∈ refs →
      r.index < top ∧ t.table r.index = ⟨r.serial, some o⟩
  | _, _, [], [_], h, refs, hrefs, r, o, hr => by
    rw [List.mem_singleton] at hrefs
    subst hrefs
    obtain ⟨-, h₂, h₃⟩ := (h.mem_iff r o).1 hr
    exact ⟨h₂, h₃⟩
  | _, _, _ :: _, _ :: _, h, refs, hrefs, r, o, hr => by
    rcases List.mem_cons.1 hrefs with rfl | hrefs
    · obtain ⟨-, h₂, h₃⟩ := (h.1.mem_iff r o).1 hr
      exact ⟨h₂, h₃⟩
    · obtain ⟨h₂, h₃⟩ := mem h.2 refs hrefs r o hr
      exact ⟨by have := h.1.le; omega, h₃⟩
  | _, _, [], [], h, _, _, _, _, _ | _, _, [], _ :: _ :: _, h, _, _, _, _, _
  | _, _, _ :: _, [], h, _, _, _, _, _ => False.elim h

end Segments

/-- An environment keeps the frames: the table holds each in its segment. -/
def JNIEnvExt.Keeps (e : JNIEnvExt α) (frames : LocalFrames α) : Prop :=
  Segments e.locals e.localRefCookie e.locals.segmentState.topIndex e.stackedLocalRefCookies frames

/-- An environment over a fresh table of `maxCount` entries, beside its one frame. -/
def freshTrace (maxCount : Nat) (resizable : Bool) : JNIEnvExt α × LocalFrames α :=
  (⟨IndirectReferenceTable.create maxCount resizable, kIRTFirstSegment, []⟩, [[]])

theorem keeps_freshTrace (maxCount : Nat) (resizable : Bool) :
    (freshTrace maxCount resizable : JNIEnvExt α × LocalFrames α).1.Keeps
      (freshTrace maxCount resizable).2 :=
  Segment.empty _ 0

/-- Every call keeps the frames it is meant to keep. -/
theorem traceStep_keeps {e : JNIEnvExt α} {frames : LocalFrames α} (h : e.Keeps frames)
    (op : Op α) : (traceStep (e, frames) op).1.Keeps (traceStep (e, frames) op).2 := by
  obtain ⟨t, cookie, stack⟩ := e
  obtain ⟨refs, outer, rfl, hseg⟩ := Segments.head h
  unfold JNIEnvExt.Keeps at h ⊢
  dsimp only at h hseg
  cases op with
  | newLocalRef obj =>
    simp only [traceStep, JNIEnvExt.newLocalRef]
    cases hadd : t.add cookie obj with
    | error err => exact h
    | ok r =>
      obtain ⟨iref, t'⟩ := r
      dsimp only
      obtain ⟨hlo, htable, -, hlkp, -, -⟩ := add_spec hseg hadd
      refine Segments.replace_head h (add_segment hseg hadd) (fun i hi => ?_)
        (.inr (Nat.le_of_eq (by rw [hlkp])))
      rw [htable, Function.update_of_ne (by omega)]
  | deleteLocalRef iref =>
    simp only [traceStep, JNIEnvExt.deleteLocalRef, LocalFrames.deleteLocalRef]
    refine Segments.replace_head h (remove_segment hseg) (fun i hi => ?_) ?_
    · rw [remove_table hseg]
      split
      · -- only a reference of the segment is removed, at or above its cookie
        rename_i hsucc
        obtain ⟨o, hmem⟩ := (remove_eq_true_iff hseg).1 hsucc
        have := ((hseg.mem_iff _ o).1 hmem).1
        rw [Function.update_of_ne (by omega)]
      · rfl
    · rcases remove_holes iref hseg with hsame | hlkp
      · exact .inl hsame
      · exact .inr (Nat.le_of_eq (by rw [hlkp]))
  | pushFrame => exact ⟨Segment.empty _ _, h⟩
  | popFrame =>
    cases stack with
    | nil =>
      -- a pop with no push: nothing changes, and there is one frame
      cases outer with
      | nil => exact h
      | cons _ _ => exact False.elim h
    | cons saved rest =>
      -- the popped segment goes, and the top comes back to its cookie
      obtain ⟨o, rest', rfl, -⟩ := Segments.head h.2
      exact Segments.frame h.2 (fun _ _ => rfl) (.inl ⟨rfl, rfl⟩)

theorem traceRun_keeps {s : JNIEnvExt α × LocalFrames α} (h : s.1.Keeps s.2) (ops : List (Op α)) :
    (traceRun s ops).1.Keeps (traceRun s ops).2 := by
  induction ops generalizing s with
  | nil => exact h
  | cons op ops ih => exact ih (traceStep_keeps h op)

/-- `Get` finds the object of every reference of every frame kept. -/
theorem get_of_keeps {e : JNIEnvExt α} {frames : LocalFrames α} (h : e.Keeps frames) :
    ∀ refs ∈ frames, ∀ iref obj, (iref, obj) ∈ refs → e.locals.get iref = some obj := by
  intro refs hrefs iref obj hmem
  obtain ⟨hlt, hentry⟩ := Segments.mem h refs hrefs iref obj hmem
  simp [IndirectReferenceTable.get, hlt, hentry]

theorem indirect_reference_table_segments (maxCount : Nat) (resizable : Bool) (ops : List (Op α))
    (e : JNIEnvExt α) (frames : LocalFrames α)
    (hrun : traceRun (freshTrace maxCount resizable) ops = (e, frames)) :
    (e.locals.recoverHoles e.localRefCookie).currentNumHoles =
        countNullEntries e.locals.table e.localRefCookie.topIndex e.locals.segmentState.topIndex ∧
      (e.locals.segmentState.topIndex = e.localRefCookie.topIndex ∨
        (e.locals.table (e.locals.segmentState.topIndex - 1)).reference.isSome) ∧
      (∀ obj iref t', e.locals.add e.localRefCookie obj = .ok (iref, t') →
        e.localRefCookie.topIndex ≤ iref.index ∧
        t'.table = Function.update e.locals.table iref.index ((e.locals.table iref.index).add obj) ∧
        if 0 < countNullEntries e.locals.table e.localRefCookie.topIndex
            e.locals.segmentState.topIndex then
          iref.index + 1 < e.locals.segmentState.topIndex ∧
            (e.locals.table iref.index).reference = none ∧ t'.segmentState = e.locals.segmentState
        else
          iref.index = e.locals.segmentState.topIndex ∧
            t'.segmentState.topIndex = e.locals.segmentState.topIndex + 1) ∧
      (∀ iref, ((e.locals.remove e.localRefCookie iref).1 = true ↔
          ∃ obj, (iref, obj) ∈ frames.headD []) ∧
        ((e.locals.remove e.localRefCookie iref).1 = true →
          (e.locals.remove e.localRefCookie iref).2.table =
            Function.update e.locals.table iref.index ⟨(e.locals.table iref.index).serial, none⟩)) ∧
      ∀ refs ∈ frames, ∀ iref obj, (iref, obj) ∈ refs → e.locals.get iref = some obj := by
  have hkeep : e.Keeps frames := by
    have := traceRun_keeps (keeps_freshTrace (α := α) maxCount resizable) ops
    rwa [hrun] at this
  obtain ⟨refs, outer, rfl, hseg⟩ := Segments.head hkeep
  refine ⟨by rw [recoverHoles_spec hseg], hseg.top_live, fun obj iref t' hadd => ?_,
    fun iref => ⟨remove_eq_true_iff hseg, fun hsucc => ?_⟩, get_of_keeps hkeep⟩
  · obtain ⟨hlo, htable, -, -, -, hcase⟩ := add_spec hseg hadd
    exact ⟨hlo, htable, hcase⟩
  · rw [remove_table hseg, if_pos hsucc]

theorem indirect_reference_table_segments_sample :
    (traceRun (freshTrace 1 false) [.newLocalRef 7]).2 = [[(⟨0, 1⟩, 7)]] ∧
      (traceRun (freshTrace 1 false) [.newLocalRef 7]).1.locals.get ⟨0, 1⟩ = some 7 := by
  have hframes : (traceRun (freshTrace 1 false) [.newLocalRef 7]).2 = [[(⟨0, 1⟩, 7)]] := by
    decide
  refine ⟨hframes, ?_⟩
  have hget := (indirect_reference_table_segments 1 false [.newLocalRef 7]
    (traceRun (freshTrace 1 false) [.newLocalRef 7]).1
    (traceRun (freshTrace 1 false) [.newLocalRef 7]).2 rfl).2.2.2.2
  rw [hframes] at hget
  exact hget _ (List.mem_singleton_self _) _ _ (List.mem_singleton_self _)

/-- After a frame is popped, `Add` can store into the entry at the top while it still holds the
reference the popped frame made there. -/
theorem add_reuses_popped_entry :
    (((freshTrace 1 false).1.run [.pushFrame, .newLocalRef 1, .popFrame] : JNIEnvExt Nat).locals.table
        0).reference = some 1 ∧
      (((freshTrace 1 false).1.run [.pushFrame, .newLocalRef 1, .popFrame] : JNIEnvExt Nat).locals.add
        kIRTFirstSegment 2).toOption.map Prod.fst = some ⟨0, 2⟩ := by
  decide

end Art
