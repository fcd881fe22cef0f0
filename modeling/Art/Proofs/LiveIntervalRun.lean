import Art.Proofs.LiveIntervalSplit

/-!
# First intersections, and runs of calls on an interval

The loop of `FirstIntersectionWith` walks the two range lists as a merge does: a range that ends
before the other list's current range starts holds no common point and is passed, and two
overlapping ranges give the first common point, where the later of them starts
(`firstIntersectionLoop_spec`).  From a cache valid at or before `current`'s start, the loop
starts where a walk from the first range would, so the answer is the first point both intervals
cover (`firstIntersectionWith_spec`).

A run is a list of calls on one interval: `AddRange`, `AddLoopRange`, `SplitAt` (the run goes on
with this interval or with the new one) and `Covers`.  A run whose every call meets its
precondition, with the queries of `Covers` non-decreasing, keeps the interval well formed and
its cache valid at the last query (`RunInv.apply`, `RunInv.runCalls`), so each `Covers` answers
as `CoversSlow` does, and as the covered set says (`RunInv.covers_of_runCalls`).
-/

namespace Art

namespace LiveInterval

open IntervalList

section FirstIntersection

/-- The loop of `FirstIntersectionWith` on two sorted lists returns their first common point,
`kNoLifetime` when they share none. -/
theorem firstIntersectionLoop_spec {A B : List LiveRange}
    (hA : Sorted LiveRange.start LiveRange.end_ A) (hB : Sorted LiveRange.start LiveRange.end_ B) :
    ∃ x, FirstCommon LiveRange.start LiveRange.end_ A B x ∧
      firstIntersectionLoop A B = x.getD kNoLifetime := by
  fun_induction firstIntersectionLoop A B with
  | case1 B => exact ⟨none, firstCommon_nil_left, rfl⟩
  | case2 A hA' => exact ⟨none, firstCommon_nil_right, rfl⟩
  | case3 my myRest other otherRest hbefore ih =>
    -- `my` ends before `other` starts: it holds no common point
    obtain ⟨x, hx, hloop⟩ := ih hA.tail hB
    exact ⟨x, (firstCommon_cons_of_hi_le_lo hB (by simpa [LiveRange.isBefore] using hbefore)).2 hx,
      hloop⟩
  | case4 my myRest other otherRest hnot hbefore ih =>
    obtain ⟨x, hx, hloop⟩ := ih hA hB.tail
    refine ⟨x, firstCommon_comm.2 ?_, hloop⟩
    exact (firstCommon_cons_of_hi_le_lo hA (by simpa [LiveRange.isBefore] using hbefore)).2
      (firstCommon_comm.1 hx)
  | case5 my myRest other otherRest hnot hnot' =>
    -- neither is before the other: they overlap
    simp only [LiveRange.isBefore, decide_eq_true_eq, Nat.not_le] at hnot hnot'
    exact ⟨_, firstCommon_of_overlap hA hB hnot hnot', rfl⟩

variable {i current : LiveInterval} {q : Nat}

/-- `FirstIntersectionWith(current)`, from a cache valid at or before `current`'s start, returns
the first point both intervals cover, `kNoLifetime` when they share none. -/
theorem firstIntersectionWith_spec (hw : i.WellFormed) (hc : current.WellFormed)
    (hv : i.SearchStartValid q) (hq : ∀ f ∈ current.ranges.head?, q ≤ f.start) :
    ∃ x, FirstCommon LiveRange.start LiveRange.end_ i.ranges current.ranges x ∧
      i.firstIntersectionWith current = some (x.getD kNoLifetime) := by
  obtain ⟨f, rest, hcur⟩ := List.exists_cons_of_ne_nil hc.ne_nil
  have hfq : q ≤ f.start := hq f (by rw [hcur]; rfl)
  have hB : Sorted LiveRange.start LiveRange.end_ (f :: rest) := hcur ▸ hc.sorted
  -- the ranges the loop skips end at or before `current`'s start
  have hs : Sorted LiveRange.start LiveRange.end_
      (i.ranges.takeWhile (·.end_ ≤ f.start) ++ i.ranges.dropWhile (·.end_ ≤ f.start)) := by
    rw [List.takeWhile_append_dropWhile]
    exact hw.sorted
  obtain ⟨x, hx, hloop⟩ := firstIntersectionLoop_spec hs.right hB
  refine ⟨x, ?_, ?_⟩
  · rw [hcur, ← List.takeWhile_append_dropWhile (p := (·.end_ ≤ f.start)) (l := i.ranges)]
    exact (firstCommon_append_of_hi_le hB fun r hr => hi_le_of_mem_takeWhile hr).2 hx
  · unfold firstIntersectionWith
    rw [hcur]
    dsimp only
    rw [findRangeAtOrAfter_searchStart hv hfq, hloop]

end FirstIntersection

/-- The calls a run makes on an interval: the two range builders, a split after which the run
goes on with this interval (`sibling = false`) or with the new one, and a `Covers` query. -/
inductive Call where
  | addRange (start end_ newRange : Nat)
  | addLoopRange (start end_ newRange : Nat)
  | splitAt (position newRange : Nat) (sibling : Bool)
  | covers (position : Nat)
  deriving DecidableEq, Repr

namespace Call

/-- The interval after a call; `none` where the code dereferences a null pointer. -/
def apply (i : LiveInterval) : Call → Option LiveInterval
  | addRange start end_ newRange => some (i.addRange start end_ newRange)
  | addLoopRange start end_ newRange => i.addLoopRange start end_ newRange
  | splitAt position newRange sibling =>
    (i.splitAt position newRange).bind fun split => if sibling then split.2 else some split.1
  | covers position => some (i.covers position).2

/-- What each call asks of the interval it is made on, `q` the last query of `Covers`:
`AddRange` before the first range, `AddLoopRange` reaching it from before, `SplitAt` strictly
inside the interval, each with a fresh node, and the queries non-decreasing. -/
def Pre (q : Nat) (i : LiveInterval) : Call → Prop
  | addRange start end_ newRange =>
    start < end_ ∧ (∀ f ∈ i.ranges.head?, end_ ≤ f.start) ∧ newRange ∉ i.ranges.map (·.addr)
  | addLoopRange start end_ newRange =>
    (∀ f ∈ i.ranges.head?, start ≤ f.start ∧ f.start ≤ end_) ∧ newRange ∉ i.ranges.map (·.addr)
  | splitAt position newRange _ =>
    (∀ f ∈ i.ranges.head?, f.start < position) ∧ (∀ e ∈ i.getEnd, position < e) ∧
      newRange ∉ i.ranges.map (·.addr)
  | covers position => q ≤ position

instance (q : Nat) (i : LiveInterval) (c : Call) : Decidable (c.Pre q i) := by
  cases c <;> unfold Pre <;> infer_instance

/-- The last query after a call. -/
def query (q : Nat) : Call → Nat
  | covers position => position
  | _ => q

end Call

/-- The interval after a list of calls. -/
def runCalls (i : LiveInterval) : List Call → Option LiveInterval
  | [] => some i
  | c :: cs => (c.apply i).bind fun j => runCalls j cs

/-- Each call meets its precondition on the interval the calls before it produced. -/
def Admissible : Nat → LiveInterval → List Call → Prop
  | _, _, [] => True
  | q, i, c :: cs => c.Pre q i ∧ ∀ j ∈ c.apply i, Admissible (c.query q) j cs

instance decidableAdmissible : (q : Nat) → (i : LiveInterval) → (cs : List Call) →
    Decidable (Admissible q i cs)
  | _, _, [] => isTrue trivial
  | q, i, c :: cs =>
    match h : c.apply i with
    | none => decidable_of_iff (c.Pre q i) (by simp [Admissible, h])
    | some j =>
      haveI := decidableAdmissible (c.query q) j cs
      decidable_of_iff (c.Pre q i ∧ Admissible (c.query q) j cs) (by simp [Admissible, h])

/-- The invariant of a run: the interval is well formed and its cache valid at the last query. -/
structure RunInv (q : Nat) (i : LiveInterval) : Prop where
  wf : i.WellFormed
  valid : i.SearchStartValid q

variable {i : LiveInterval} {q : Nat}

/-- A call that meets its precondition succeeds and keeps the invariant. -/
theorem RunInv.apply (h : RunInv q i) {c : Call} (hpre : c.Pre q i) :
    ∃ j, c.apply i = some j ∧ RunInv (c.query q) j := by
  cases c with
  | addRange start end_ newRange =>
    obtain ⟨hse, hend, hfresh⟩ := hpre
    exact ⟨_, rfl, h.wf.addRange hse hend hfresh, h.valid.addRange h.wf hse hend⟩
  | addLoopRange start end_ newRange =>
    obtain ⟨hfirst, -⟩ := hpre
    obtain ⟨j, hj, hwj, -, hvj⟩ := addLoopRange_spec newRange h.wf hfirst
    exact ⟨j, hj, hwj, hvj q⟩
  | splitAt position newRange sibling =>
    obtain ⟨hstart, hend, hfresh⟩ := hpre
    obtain ⟨i', sib, hsplit, hwi, hws, -, -, hvi, hss⟩ := splitAt_spec h.wf hstart hend hfresh
    -- the new interval's cache is at its first range, valid for every query
    cases sibling with
    | false => exact ⟨i', by simp [Call.apply, hsplit], hwi, hvi q h.valid⟩
    | true => exact ⟨sib, by simp [Call.apply, hsplit], hws, searchStartValid_of_first hws hss q⟩
  | covers position =>
    exact ⟨_, rfl, h.wf.covers position, searchStartValid_covers h.wf h.valid hpre⟩

/-- An admissible run never fails, and ends well formed with a valid cache. -/
theorem RunInv.runCalls {cs : List Call} (h : RunInv q i) (hadm : Admissible q i cs) :
    ∃ j q', i.runCalls cs = some j ∧ RunInv q' j := by
  induction cs generalizing q i with
  | nil => exact ⟨i, q, rfl, h⟩
  | cons c cs ih =>
    obtain ⟨hpre, hrest⟩ := hadm
    obtain ⟨j, hj, hinv⟩ := h.apply hpre
    obtain ⟨k, q', hk, hinvk⟩ := ih hinv (hrest j hj)
    exact ⟨k, q', by rw [LiveInterval.runCalls, hj, Option.bind_some, hk], hinvk⟩

/-- In an admissible run, each `Covers(p)` answers, on the interval the calls before it
produced, as `CoversSlow(p)` does and as the covered set says. -/
theorem RunInv.covers_of_runCalls {pre post : List Call} {p : Nat} (h : RunInv q i)
    (hadm : Admissible q i (pre ++ Call.covers p :: post)) :
    ∃ j, i.runCalls pre = some j ∧ (j.covers p).1 = j.coversSlow p ∧
      (j.coversSlow p = true ↔ j.Covered p) := by
  induction pre generalizing q i with
  | nil =>
    obtain ⟨hp, -⟩ := hadm
    exact ⟨i, rfl, covers_fst h.valid hp, coversSlow_iff h.wf p⟩
  | cons c pre ih =>
    obtain ⟨hpre, hrest⟩ := hadm
    obtain ⟨j, hj, hinv⟩ := h.apply hpre
    obtain ⟨k, hk, hcovers⟩ := ih hinv (hrest j hj)
    exact ⟨k, by rw [LiveInterval.runCalls, hj, Option.bind_some, hk], hcovers⟩

/-- The range lists of live intervals: `SplitAt` inside the interval, `AddRange` before the first
range and `AddLoopRange` reaching it keep intervals well formed and cut or extend the covered
set; in a run of these calls with non-decreasing `Covers` queries, from a cache valid at the
first query, `Covers` answers as `CoversSlow` and as the covered set; and `FirstIntersectionWith`
from such a cache returns the first common point, `kNoLifetime` when there is none. -/
theorem live_interval_ranges_spec :
    (∀ (i : LiveInterval) (position newRange : Nat), i.WellFormed →
      (∀ f ∈ i.ranges.head?, f.start < position) → (∀ e ∈ i.getEnd, position < e) →
      newRange ∉ i.ranges.map (·.addr) →
      ∃ i' sibling, i.splitAt position newRange = some (i', some sibling) ∧
        i'.WellFormed ∧ sibling.WellFormed ∧
        (∀ q, i'.Covered q ↔ i.Covered q ∧ q < position) ∧
        (∀ q, sibling.Covered q ↔ i.Covered q ∧ position ≤ q)) ∧
    (∀ (i : LiveInterval) (start end_ newRange : Nat), i.WellFormed → start < end_ →
      (∀ f ∈ i.ranges.head?, end_ ≤ f.start) → newRange ∉ i.ranges.map (·.addr) →
      (i.addRange start end_ newRange).WellFormed ∧
        ∀ q, (i.addRange start end_ newRange).Covered q ↔ i.Covered q ∨ (start ≤ q ∧ q < end_)) ∧
    (∀ (i : LiveInterval) (start end_ newRange : Nat), i.WellFormed →
      (∀ f ∈ i.ranges.head?, start ≤ f.start ∧ f.start ≤ end_) →
      ∃ i', i.addLoopRange start end_ newRange = some i' ∧ i'.WellFormed ∧
        ∀ q, i'.Covered q ↔ i.Covered q ∨ (start ≤ q ∧ q < end_)) ∧
    (∀ (i : LiveInterval) (q : Nat) (calls : List Call), i.WellFormed → i.SearchStartValid q →
      Admissible q i calls →
      (∃ j, i.runCalls calls = some j ∧ j.WellFormed) ∧
      ∀ pre p post, calls = pre ++ Call.covers p :: post →
        ∃ j, i.runCalls pre = some j ∧ (j.covers p).1 = j.coversSlow p ∧
          (j.coversSlow p = true ↔ j.Covered p)) ∧
    (∀ (i current : LiveInterval) (q : Nat), i.WellFormed → current.WellFormed →
      i.SearchStartValid q → (∀ f ∈ current.ranges.head?, q ≤ f.start) →
      ∃ x, FirstCommon LiveRange.start LiveRange.end_ i.ranges current.ranges x ∧
        i.firstIntersectionWith current = some (x.getD kNoLifetime)) := by
  refine ⟨fun i position newRange hw hstart hend hfresh => ?_,
    fun i start end_ newRange hw hse hend hfresh =>
      ⟨hw.addRange hse hend hfresh, covered_addRange hw hse hend⟩,
    fun i start end_ newRange hw hfirst => ?_,
    fun i q calls hw hv hadm => ⟨?_, ?_⟩,
    fun i current q hw hc hv hq => firstIntersectionWith_spec hw hc hv hq⟩
  · obtain ⟨i', sibling, hsplit, hwi, hws, hci, hcs, -, -⟩ := splitAt_spec hw hstart hend hfresh
    exact ⟨i', sibling, hsplit, hwi, hws, hci, hcs⟩
  · obtain ⟨i', hadd, hwi, hci, -⟩ := addLoopRange_spec newRange hw hfirst
    exact ⟨i', hadd, hwi, hci⟩
  · obtain ⟨j, q', hj, hinv⟩ := RunInv.runCalls ⟨hw, hv⟩ hadm
    exact ⟨j, hj, hinv.wf⟩
  · rintro pre p post rfl
    exact RunInv.covers_of_runCalls ⟨hw, hv⟩ hadm

theorem live_interval_ranges_spec_sample :
    (∃ i' sibling, (⟨[⟨0, 0, 4⟩, ⟨1, 6, 9⟩], some 1, some 0, [], false, false⟩ : LiveInterval).splitAt
        7 2 = some (i', some sibling) ∧ i'.WellFormed ∧ sibling.WellFormed ∧
      (∀ q, i'.Covered q ↔
        (⟨[⟨0, 0, 4⟩, ⟨1, 6, 9⟩], some 1, some 0, [], false, false⟩ : LiveInterval).Covered q ∧ q < 7) ∧
      (∀ q, sibling.Covered q ↔
        (⟨[⟨0, 0, 4⟩, ⟨1, 6, 9⟩], some 1, some 0, [], false, false⟩ : LiveInterval).Covered q ∧
          7 ≤ q)) ∧
    ((⟨[⟨0, 6, 9⟩], some 0, some 0, [], false, false⟩ : LiveInterval).addRange 2 4 1).WellFormed ∧
    (∃ i', (⟨[⟨0, 6, 9⟩], some 0, some 0, [], false, false⟩ : LiveInterval).addLoopRange 2 7 1 =
        some i' ∧ i'.WellFormed ∧
      ∀ q, i'.Covered q ↔
        (⟨[⟨0, 6, 9⟩], some 0, some 0, [], false, false⟩ : LiveInterval).Covered q ∨
          (2 ≤ q ∧ q < 7)) ∧
    (∃ j, (⟨[⟨0, 0, 4⟩, ⟨1, 6, 9⟩], some 1, some 0, [], false, false⟩ : LiveInterval).runCalls
        [Call.covers 2, Call.splitAt 7 2 false, Call.covers 6] = some j ∧ j.WellFormed) ∧
    (∃ x, FirstCommon LiveRange.start LiveRange.end_ [⟨0, 0, 4⟩, ⟨1, 6, 9⟩] [⟨5, 7, 8⟩] x ∧
      (⟨[⟨0, 0, 4⟩, ⟨1, 6, 9⟩], some 1, some 0, [], false, false⟩ : LiveInterval).firstIntersectionWith
        ⟨[⟨5, 7, 8⟩], some 5, some 5, [], false, false⟩ = some (x.getD kNoLifetime)) :=
  ⟨live_interval_ranges_spec.1 _ 7 2 (by decide) (by decide) (by decide) (by decide),
    (live_interval_ranges_spec.2.1 _ 2 4 1 (by decide) (by decide) (by decide) (by decide)).1,
    live_interval_ranges_spec.2.2.1 _ 2 7 1 (by decide) (by decide),
    (live_interval_ranges_spec.2.2.2.1 _ 0 _ (by decide) (by decide) (by decide)).1,
    live_interval_ranges_spec.2.2.2.2 ⟨[⟨0, 0, 4⟩, ⟨1, 6, 9⟩], some 1, some 0, [], false, false⟩
      ⟨[⟨5, 7, 8⟩], some 5, some 5, [], false, false⟩ 0 (by decide) (by decide) (by decide)
      (by decide)⟩

/-- Outside the preconditions the properties fail: `AddRange(7, 5)` on `[5, 9)` leaves `[7, 9)` and
loses 5; `AddLoopRange(0, 5)` on `[10, 20)` finds no range ending before 5 and dereferences the
null `last_in_loop`; and with the cache on `[10, 20)` of `[0, 5) [10, 20)`, `Covers(2)` misses 2
and `FirstIntersectionWith` of `[3, 12)` returns 10, although both cover 3. -/
theorem live_interval_ranges_without_preconditions :
    ¬(∀ (i : LiveInterval) (start end_ newRange : Nat), i.WellFormed →
      (∀ f ∈ i.ranges.head?, end_ ≤ f.start) → newRange ∉ i.ranges.map (·.addr) →
      ∀ q, (i.addRange start end_ newRange).Covered q ↔ i.Covered q ∨ (start ≤ q ∧ q < end_)) ∧
    ¬(∀ (i : LiveInterval) (start end_ newRange : Nat), i.WellFormed →
      (∀ f ∈ i.ranges.head?, start ≤ f.start) → newRange ∉ i.ranges.map (·.addr) →
      ∃ i', i.addLoopRange start end_ newRange = some i') ∧
    ¬(∀ (i : LiveInterval) (p : Nat), i.WellFormed → (i.covers p).1 = i.coversSlow p) ∧
    ¬(∀ (i current : LiveInterval), i.WellFormed → current.WellFormed →
      ∃ x, FirstCommon LiveRange.start LiveRange.end_ i.ranges current.ranges x ∧
        i.firstIntersectionWith current = some (x.getD kNoLifetime)) := by
  refine ⟨fun h => ?_, fun h => ?_, fun h => ?_, fun h => ?_⟩
  · have := h ⟨[⟨0, 5, 9⟩], some 0, some 0, [], false, false⟩ 7 5 1 (by decide) (by decide)
      (by decide) 5
    revert this
    decide
  · obtain ⟨i', hi'⟩ := h ⟨[⟨0, 10, 20⟩], some 0, some 0, [], false, false⟩ 0 5 1 (by decide)
      (by decide) (by decide)
    exact Option.some_ne_none i' (hi'.symm.trans (by decide : _ = none))
  · have := h ⟨[⟨0, 0, 5⟩, ⟨1, 10, 20⟩], some 1, some 1, [], false, false⟩ 2 (by decide)
    revert this
    decide
  · obtain ⟨x, hx, hfirst⟩ := h ⟨[⟨0, 0, 5⟩, ⟨1, 10, 20⟩], some 1, some 1, [], false, false⟩
      ⟨[⟨2, 3, 12⟩], some 2, some 2, [], false, false⟩ (by decide) (by decide)
    have h3 : IntervalList.Covered LiveRange.start LiveRange.end_ [⟨0, 0, 5⟩, ⟨1, 10, 20⟩] 3 ∧
        IntervalList.Covered LiveRange.start LiveRange.end_ [⟨2, 3, 12⟩] 3 := by decide
    cases x with
    | none => exact hx 3 h3
    | some x =>
      have hx10 : x = 10 := by
        simpa [firstIntersectionWith, findRangeAtOrAfter, fromNode, firstIntersectionLoop,
          LiveRange.isBefore] using hfirst.symm
      subst hx10
      exact absurd (hx.2 h3) (by decide)

end LiveInterval

end Art
