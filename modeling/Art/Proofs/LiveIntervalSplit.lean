import Art.Proofs.LiveInterval

/-!
# Splitting an interval

`SplitAt(p)` passes the ranges that end at or before `p` and stops at the first range `c` that
does not.  If `p` is in the lifetime hole before `c`, the ranges from `c` on go to the new
interval; otherwise `c` is cut at `p`, its lower part a new last range of this interval.  Either
way the covered set is cut at `p` (`splitAt_spec`).  The cache of this interval stays valid:
`SplitAt` moves it off `c` and the ranges after `c`, which are exactly those that do not end
before `c` ends, and it leaves it where it was otherwise, on a range before `c`.
-/

namespace Art

namespace LiveInterval

open IntervalList

variable {i : LiveInterval} {position newRange : Nat}

/-- The last range of a well-formed interval, and `GetEnd()` its end. -/
theorem WellFormed.getEnd_last (hw : i.WellFormed) :
    ∃ last, i.ranges.getLast? = some last ∧ i.getEnd = some last.end_ := by
  obtain ⟨last, hlast⟩ : ∃ last, i.ranges.getLast? = some last :=
    ⟨_, List.getLast?_eq_some_getLast hw.ne_nil⟩
  refine ⟨last, hlast, ?_⟩
  unfold LiveInterval.getEnd
  rw [hw.lastRange_eq, hlast, Option.map_some, Option.bind_some,
    hw.node_of_mem (List.mem_of_getLast? hlast), Option.map_some]

/-- Where the cache of a well-formed interval is, against a range `c`: null, on a range that
does not end before `c` (the test of `SplitAt` holds), or on one that does. -/
theorem WellFormed.searchStart_cases (hw : i.WellFormed) (c : LiveRange) :
    (i.rangeSearchStart = none ∧ i.searchStartFrom c = false) ∨
      ∃ r ∈ i.ranges, i.rangeSearchStart = some r.addr ∧ i.node r.addr = some r ∧
        ((c.end_ ≤ r.end_ ∧ i.searchStartFrom c = true) ∨
          (r.end_ < c.end_ ∧ i.searchStartFrom c = false)) := by
  rcases hw.searchStart_node with hs | ⟨r, hr, hs, hnode⟩
  · refine Or.inl ⟨hs, ?_⟩
    unfold searchStartFrom
    rw [hs]
    rfl
  · refine Or.inr ⟨r, hr, hs, hnode, ?_⟩
    unfold searchStartFrom
    rw [hs, Option.bind_some, hnode]
    by_cases hle : c.end_ ≤ r.end_
    · exact Or.inl ⟨hle, by simpa using hle⟩
    · exact Or.inr ⟨by omega, by simpa using hle⟩

/-- In sorted ranges, a range ending before `c` ends comes before `c`. -/
theorem mem_left_of_end_lt {T rest : List LiveRange} {c r : LiveRange}
    (hs : Sorted LiveRange.start LiveRange.end_ (T ++ c :: rest)) (hr : r ∈ T ++ c :: rest)
    (hlt : r.end_ < c.end_) : r ∈ T := by
  rcases List.mem_append.1 hr with hr | hr
  · exact hr
  · rcases List.mem_cons.1 hr with rfl | hr
    · omega
    · have := hs.right.hi_lt_lo r hr
      have := hs.lt r (List.mem_append_right _ (List.mem_cons_of_mem _ hr))
      omega

/-- The loop of `SplitAt` passes the ranges that end at or before `position`. -/
theorem splitAtLoop_append (sp : List Nat × List Nat) (previous pre l : List LiveRange)
    (hpre : ∀ r ∈ pre, r.end_ ≤ position) :
    i.splitAtLoop position newRange sp previous (pre ++ l) =
      i.splitAtLoop position newRange sp (previous ++ pre) l := by
  induction pre generalizing previous with
  | nil => rw [List.nil_append, List.append_nil]
  | cons r pre ih =>
    rw [List.cons_append, splitAtLoop, if_pos (hpre r List.mem_cons_self),
      ih _ fun r' hr' => hpre r' (List.mem_cons_of_mem r hr'), List.append_assoc,
      List.singleton_append]

/-- What `SplitAt(position)` does to a well-formed interval with `position` strictly between its
start and its end: at the first range `c` not ending at or before `position`, it splits at the
hole before `c` or cuts `c`. -/
theorem splitAt_cases (newRange : Nat) (hw : i.WellFormed)
    (hstart : ∀ f ∈ i.ranges.head?, f.start < position) (hend : ∀ e ∈ i.getEnd, position < e) :
    ∃ c rest, i.ranges.dropWhile (·.end_ ≤ position) = c :: rest ∧ position < c.end_ ∧
      ((position ≤ c.start ∧ ∃ last, (i.ranges.takeWhile (·.end_ ≤ position)).getLast? = some last ∧
          i.splitAt position newRange = some
            ({ i with ranges := i.ranges.takeWhile (·.end_ ≤ position), lastRange := some last.addr,
                      rangeSearchStart := if i.searchStartFrom c then none else i.rangeSearchStart,
                      safepoints := (i.splitSafepoints position).1 },
             some ⟨c :: rest, i.lastRange, some c.addr, (i.splitSafepoints position).2, false,
               false⟩)) ∨
        (c.start < position ∧
          i.splitAt position newRange = some
            ({ i with ranges := i.ranges.takeWhile (·.end_ ≤ position) ++
                                  [⟨newRange, c.start, position⟩],
                      lastRange := some newRange,
                      rangeSearchStart := if i.searchStartFrom c then some newRange
                                          else i.rangeSearchStart,
                      safepoints := (i.splitSafepoints position).1 },
             some ⟨{ c with start := position } :: rest, i.lastRange, some c.addr,
               (i.splitSafepoints position).2, false, false⟩))) := by
  obtain ⟨last, hlast, hgetEnd⟩ := hw.getEnd_last
  have hpl : position < last.end_ := hend _ hgetEnd
  cases hd : i.ranges.dropWhile (·.end_ ≤ position) with
  | nil =>
    -- the last range ends after `position`, so the loop stops at a range
    have := List.dropWhile_eq_nil_iff.1 hd last (List.mem_of_getLast? hlast)
    simp at this
    omega
  | cons c rest =>
    have hc : position < c.end_ := by simpa using eq_false_of_dropWhile_eq_cons hd
    have hsplit : i.ranges = i.ranges.takeWhile (·.end_ ≤ position) ++ c :: rest := by
      rw [← hd, List.takeWhile_append_dropWhile]
    have hloop : i.splitAtLoop position newRange (i.splitSafepoints position) [] i.ranges =
        i.splitAtLoop position newRange (i.splitSafepoints position)
          (i.ranges.takeWhile (·.end_ ≤ position)) (c :: rest) := by
      conv_lhs => rw [hsplit]
      rw [splitAtLoop_append _ _ _ _ fun r hr => hi_le_of_mem_takeWhile hr, List.nil_append]
    refine ⟨c, rest, rfl, hc, ?_⟩
    unfold splitAt
    rw [hgetEnd]
    dsimp only
    rw [if_neg (by omega), hloop, splitAtLoop, if_neg (by omega)]
    by_cases hcp : position ≤ c.start
    · rw [if_pos hcp]
      cases hT : (i.ranges.takeWhile (·.end_ ≤ position)).getLast? with
      | none =>
        -- no range passed: `c` is the first range, which starts before `position`
        rw [List.getLast?_eq_none_iff.1 hT, List.nil_append] at hsplit
        have := hstart c (by rw [hsplit]; rfl)
        omega
      | some last => exact Or.inl ⟨hcp, last, rfl, rfl⟩
    · rw [if_neg hcp]
      exact Or.inr ⟨by omega, rfl⟩

/-- `SplitAt(position)` with `position` strictly inside a well-formed interval: both intervals
well formed, this one covering what the interval covered below `position` and the new one the
rest; this interval's cache stays valid, and the new one's is at its first range. -/
theorem splitAt_spec (hw : i.WellFormed) (hstart : ∀ f ∈ i.ranges.head?, f.start < position)
    (hend : ∀ e ∈ i.getEnd, position < e) (hfresh : newRange ∉ i.ranges.map (·.addr)) :
    ∃ i' sibling, i.splitAt position newRange = some (i', some sibling) ∧
      i'.WellFormed ∧ sibling.WellFormed ∧
      (∀ q, i'.Covered q ↔ i.Covered q ∧ q < position) ∧
      (∀ q, sibling.Covered q ↔ i.Covered q ∧ position ≤ q) ∧
      (∀ q, i.SearchStartValid q → i'.SearchStartValid q) ∧
      sibling.rangeSearchStart = sibling.firstRange := by
  obtain ⟨c, rest, hd, hc, ⟨hcp, last, hlast, hsplitAt⟩ | ⟨hcp, hsplitAt⟩⟩ :=
    splitAt_cases newRange hw hstart hend
  all_goals
    refine ⟨_, _, hsplitAt, ?_⟩
    set T := i.ranges.takeWhile (·.end_ ≤ position) with hTdef
    have hsplit : i.ranges = T ++ c :: rest := by rw [← hd, List.takeWhile_append_dropWhile]
    have hs : Sorted LiveRange.start LiveRange.end_ (T ++ c :: rest) := hsplit ▸ hw.sorted
    have hnd := hw.addr_nodup
    rw [hsplit, List.map_append] at hnd
    have hT : ∀ r ∈ T, r.end_ ≤ position := fun r hr => hi_le_of_mem_takeWhile hr
    have hbelow := covered_split_below hs hT hc
    have habove := covered_split_above hs hT hc
    have hlastRange : i.lastRange = (c :: rest).getLast?.map (·.addr) := by
      rw [hw.lastRange_eq, hsplit, List.getLast?_append_of_ne_nil _ (List.cons_ne_nil _ _)]
    -- the cache, if not null, is on a range before `c` or on `c` and after
    have hcases := hw.searchStart_cases c
  · -- `position` is in the hole before `c`: the ranges from `c` on go to the new interval
    have hTne : T ≠ [] := fun h => by rw [h] at hlast; simp at hlast
    have hwI : WellFormed
        { i with ranges := T, lastRange := some last.addr,
                 rangeSearchStart := if i.searchStartFrom c then none else i.rangeSearchStart,
                 safepoints := (i.splitSafepoints position).1 } := by
      refine ⟨hTne, hs.left, (List.nodup_append.1 hnd).1, by simp [hlast], fun a ha => ?_⟩
      dsimp only at ha
      rcases hcases with ⟨hnone, hfalse⟩ | ⟨r, hr, hrss, -, ⟨-, htrue⟩ | ⟨hlt, hfalse⟩⟩
      · simp [hnone, hfalse] at ha
      · simp [htrue] at ha
      · rw [hfalse, hrss, if_neg Bool.false_ne_true, Option.mem_some_iff] at ha
        rw [← ha]
        exact List.mem_map_of_mem (mem_left_of_end_lt hs (hsplit ▸ hr) hlt)
    refine ⟨hwI, ⟨List.cons_ne_nil _ _, hs.right, (List.nodup_append.1 hnd).2.1, hlastRange,
      fun a ha => ?_⟩, fun q => ?_, fun q => ?_, fun q hq => ?_, rfl⟩
    · rw [Option.mem_some_iff] at ha
      rw [← ha]
      exact List.mem_map_of_mem List.mem_cons_self
    · show IntervalList.Covered _ _ T q ↔ _
      rw [covered_iff, hsplit, hbelow]
      constructor
      · exact Or.inl
      · rintro (h | ⟨h1, h2⟩)
        · exact h
        · omega
    · rw [covered_iff, covered_iff, hsplit, habove, covered_cons]
      grind
    · rw [searchStartValid_iff hw] at hq
      rw [searchStartValid_iff hwI]
      intro r' hr' hcond
      have hr'mem : r' ∈ i.ranges := by
        rw [hsplit]
        exact List.mem_append_left _ hr'
      rcases hcases with ⟨hnone, hfalse⟩ | ⟨r, hr, hrss, hnode, ⟨hle, htrue⟩ | ⟨hlt, hfalse⟩⟩
      · exact hq r' hr'mem (by simp [hnone])
      · -- the cache was on `c` or after: everything before `c` ends before it
        refine hq r' hr'mem fun r₀ hr₀ => ?_
        rw [hrss, Option.bind_some, hnode, Option.mem_some_iff] at hr₀
        subst hr₀
        have := hT r' hr'
        omega
      · -- the cache stays on `r`, a range before `c`
        have hrT : r ∈ T := mem_left_of_end_lt hs (hsplit ▸ hr) hlt
        refine hq r' hr'mem fun r₀ hr₀ => ?_
        rw [hrss, Option.bind_some, hnode, Option.mem_some_iff] at hr₀
        subst hr₀
        apply hcond
        dsimp only
        rw [hfalse, if_neg Bool.false_ne_true, hrss, Option.bind_some]
        exact find?_addr hwI.addr_nodup hrT
  · -- `c` covers `position`: its lower part is the new last range of this interval
    have hlt : c.start < c.end_ := hs.lt c (List.mem_append_right _ List.mem_cons_self)
    have hwI : WellFormed
        { i with ranges := T ++ [⟨newRange, c.start, position⟩], lastRange := some newRange,
                 rangeSearchStart := if i.searchStartFrom c then some newRange
                                     else i.rangeSearchStart,
                 safepoints := (i.splitSafepoints position).1 } := by
      refine ⟨by simp, sorted_append_iff.2 ⟨hs.left, sorted_cons_iff.2 ⟨hcp, by simp, sorted_nil⟩,
        fun r hr s hs' => ?_⟩, ?_, by simp, fun a ha => ?_⟩
      · rw [List.head?_cons, Option.mem_some_iff] at hs'
        rw [← hs']
        exact hs.hi_lt_lo_of_mem_left (List.mem_of_getLast? hr)
      · rw [List.map_append, List.map_singleton]
        refine List.nodup_append.2 ⟨(List.nodup_append.1 hnd).1, List.nodup_singleton _, ?_⟩
        intro a ha b hb hab
        rw [List.mem_singleton] at hb
        rw [hab, hb] at ha
        rw [hsplit, List.map_append] at hfresh
        exact hfresh (List.mem_append_left _ ha)
      · dsimp only at ha
        rcases hcases with ⟨hnone, hfalse⟩ | ⟨r, hr, hrss, -, ⟨-, htrue⟩ | ⟨hlt, hfalse⟩⟩
        · simp [hnone, hfalse] at ha
        · rw [htrue, if_pos rfl, Option.mem_some_iff] at ha
          rw [← ha, List.map_append]
          exact List.mem_append_right _ (List.mem_singleton_self _)
        · rw [hfalse, hrss, if_neg Bool.false_ne_true, Option.mem_some_iff] at ha
          rw [← ha, List.map_append]
          exact List.mem_append_left _
            (List.mem_map_of_mem (mem_left_of_end_lt hs (hsplit ▸ hr) hlt))
    refine ⟨hwI, ⟨List.cons_ne_nil _ _, ?_, by simpa using (List.nodup_append.1 hnd).2.1, ?_,
      fun a ha => ?_⟩, fun q => ?_, fun q => ?_, fun q hq => ?_, rfl⟩
    · obtain ⟨-, hhead, hrest⟩ := sorted_cons_iff.1 hs.right
      exact sorted_cons_iff.2 ⟨by dsimp only; omega, hhead, hrest⟩
    · show i.lastRange = _
      rw [hlastRange, getLast?_map_addr_cons
        (show (⟨c.addr, position, c.end_⟩ : LiveRange).addr = c.addr from rfl)]
    · rw [Option.mem_some_iff] at ha
      rw [← ha]
      exact List.mem_map.2 ⟨_, List.mem_cons_self, rfl⟩
    · show IntervalList.Covered _ _ (T ++ _) q ↔ _
      rw [covered_iff, hsplit, hbelow, covered_append, covered_cons]
      simp only [covered_nil, or_false]
    · rw [covered_iff, covered_iff, hsplit, habove, covered_cons]
      grind
    · rw [searchStartValid_iff hw] at hq
      rw [searchStartValid_iff hwI]
      intro r' hr' hcond
      dsimp only at hr' hcond
      -- the new range ends at `position`, before `c` ends
      have hnew : ∀ r₀ ∈ i.ranges, c.end_ ≤ r₀.end_ → r₀.end_ ≤ q → position ≤ q := by
        intro r₀ _ hle hq₀
        omega
      rcases List.mem_append.1 hr' with hr'T | hr'n
      · have hr'mem : r' ∈ i.ranges := by
          rw [hsplit]
          exact List.mem_append_left _ hr'T
        rcases hcases with ⟨hnone, hfalse⟩ | ⟨r, hr, hrss, hnode, ⟨hle, htrue⟩ | ⟨hlt', hfalse⟩⟩
        · exact hq r' hr'mem (by simp [hnone])
        · refine hq r' hr'mem fun r₀ hr₀ => ?_
          rw [hrss, Option.bind_some, hnode, Option.mem_some_iff] at hr₀
          subst hr₀
          have := hT r' hr'T
          omega
        · have hrT : r ∈ T := mem_left_of_end_lt hs (hsplit ▸ hr) hlt'
          refine hq r' hr'mem fun r₀ hr₀ => ?_
          rw [hrss, Option.bind_some, hnode, Option.mem_some_iff] at hr₀
          subst hr₀
          apply hcond
          rw [hfalse, if_neg Bool.false_ne_true, hrss, Option.bind_some]
          exact find?_addr hwI.addr_nodup (List.mem_append_left _ hrT)
      · rw [List.mem_singleton] at hr'n
        subst hr'n
        rcases hcases with ⟨hnone, hfalse⟩ | ⟨r, hr, hrss, hnode, ⟨hle, htrue⟩ | ⟨hlt', hfalse⟩⟩
        · -- a null cache: every range, `c` among them, ends at or before `q`
          have hcmem : c ∈ i.ranges := by
            rw [hsplit]
            exact List.mem_append_right _ List.mem_cons_self
          have := hq c hcmem (by simp [hnone])
          dsimp only
          omega
        · -- the cache is now the new range itself
          exfalso
          have := hcond ⟨newRange, c.start, position⟩ (by
            rw [htrue, if_pos rfl, Option.bind_some]
            exact find?_addr hwI.addr_nodup (List.mem_append_right _ (List.mem_singleton_self _)))
          exact Nat.lt_irrefl _ this
        · -- the cache is on `r` before `c`, which ends at or before `position`
          exfalso
          have hrT : r ∈ T := mem_left_of_end_lt hs (hsplit ▸ hr) hlt'
          have hpr : position < r.end_ := hcond r (by
            rw [hfalse, if_neg Bool.false_ne_true, hrss, Option.bind_some]
            exact find?_addr hwI.addr_nodup (List.mem_append_left _ hrT))
          have := hT r hrT
          omega

end LiveInterval

end Art
