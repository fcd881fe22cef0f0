import Mathlib
import Art.Compiler.LiveInterval
import Art.Lib.IntervalList

/-!
# Live ranges stay sorted, and the search cache agrees with a full search

An interval is `WellFormed` when its ranges are non-empty, sorted and on distinct nodes, with
`last_range_` its last node and `range_search_start_` null or one of its nodes.  `Covered i q`
is the set of positions its ranges hold.

`AddRange` and `AddLoopRange` (`covered_addRange`, `addLoopRange_spec`) add `[start, end)` to
the covered set and `SplitAt(p)` cuts it at `p` (`splitAt_spec`), each keeping the interval
well formed.  Since the ranges are sorted by their ends, the ranges before the node
`range_search_start_` points to are the ranges that end before it (`searchStartValid_iff`).
`SearchStartValid q` says that all of them end at or before `q`, the last position `Covers` was
asked about; then `FindRangeAtOrAfter` from the cache finds what it finds from the first range,
so `Covers(p)` for `p ≥ q` is `CoversSlow(p)` (`covers_fst`), and it leaves the cache valid for
`p`.  Each operation keeps the cache valid, `SplitAt` thanks to its test on range ends.
-/

namespace Art

namespace LiveInterval

open IntervalList

/-- `covered(I)`: the positions the ranges of the interval hold. -/
def Covered (i : LiveInterval) (q : Nat) : Prop :=
  IntervalList.Covered LiveRange.start LiveRange.end_ i.ranges q

instance (i : LiveInterval) (q : Nat) : Decidable (i.Covered q) :=
  inferInstanceAs (Decidable (IntervalList.Covered LiveRange.start LiveRange.end_ i.ranges q))

/-- A well-formed interval: sorted non-empty ranges on distinct nodes, `last_range_` the last
node and `range_search_start_` null or a node of the list. -/
structure WellFormed (i : LiveInterval) : Prop where
  ne_nil : i.ranges ≠ []
  sorted : Sorted LiveRange.start LiveRange.end_ i.ranges
  addr_nodup : (i.ranges.map (·.addr)).Nodup
  lastRange_eq : i.lastRange = i.ranges.getLast?.map (·.addr)
  searchStart_mem : ∀ a ∈ i.rangeSearchStart, a ∈ i.ranges.map (·.addr)

instance (i : LiveInterval) : Decidable i.WellFormed :=
  decidable_of_iff (i.ranges ≠ [] ∧ Sorted LiveRange.start LiveRange.end_ i.ranges ∧
      (i.ranges.map (·.addr)).Nodup ∧ i.lastRange = i.ranges.getLast?.map (·.addr) ∧
      ∀ a ∈ i.rangeSearchStart, a ∈ i.ranges.map (·.addr))
    ⟨fun ⟨h₁, h₂, h₃, h₄, h₅⟩ => ⟨h₁, h₂, h₃, h₄, h₅⟩, fun ⟨h₁, h₂, h₃, h₄, h₅⟩ => ⟨h₁, h₂, h₃, h₄, h₅⟩⟩

/-- The ranges before the node `range_search_start_` points to; all of them when it is null. -/
def beforeSearchStart (i : LiveInterval) : List LiveRange :=
  match i.rangeSearchStart with
  | none => i.ranges
  | some a => i.ranges.takeWhile (·.addr != a)

/-- `range_search_start_` skips only ranges that end at or before `q`. -/
def SearchStartValid (q : Nat) (i : LiveInterval) : Prop :=
  ∀ r ∈ i.beforeSearchStart, r.end_ ≤ q

instance (q : Nat) (i : LiveInterval) : Decidable (i.SearchStartValid q) :=
  inferInstanceAs (Decidable (∀ r ∈ i.beforeSearchStart, r.end_ ≤ q))

section Nodes

variable {l₁ l₂ : List LiveRange} {c : LiveRange}

/-- On distinct nodes, the nodes before `c` are those the walk to `c`'s address passes. -/
theorem takeWhile_addr_ne (h : ((l₁ ++ c :: l₂).map (·.addr)).Nodup) :
    (l₁ ++ c :: l₂).takeWhile (·.addr != c.addr) = l₁ := by
  induction l₁ with
  | nil => simp
  | cons x l₁ ih =>
    rw [List.cons_append, List.map_cons, List.nodup_cons] at h
    have hx : x.addr ≠ c.addr := fun hx =>
      h.1 (hx ▸ List.mem_map_of_mem (List.mem_append_right _ List.mem_cons_self))
    rw [List.cons_append, List.takeWhile_cons_of_pos (by simpa using hx), ih h.2]

/-- The first element `dropWhile` leaves fails the test. -/
theorem eq_false_of_dropWhile_eq_cons {p : LiveRange → Bool} {l rest : List LiveRange}
    (h : l.dropWhile p = c :: rest) : p c = false := by
  have := List.head?_dropWhile_not p l
  rw [h] at this
  exact this

/-- On distinct nodes, the node found at an address is the one with it. -/
theorem find?_addr {l : List LiveRange} (h : (l.map (·.addr)).Nodup) {r : LiveRange} (hr : r ∈ l) :
    l.find? (·.addr == r.addr) = some r := by
  obtain ⟨l₁, l₂, rfl⟩ := List.append_of_mem hr
  rw [List.find?_append, List.find?_eq_none.2 fun x hx => ?_, Option.none_or,
    List.find?_cons_of_pos (by simp)]
  -- no node before `r` has its address
  have hne := (List.nodup_append.1 (List.map_append ▸ h)).2.2 x.addr (List.mem_map_of_mem hx)
    r.addr (List.mem_map_of_mem List.mem_cons_self)
  simpa using hne

/-- In sorted ranges on distinct nodes, the ranges before a node are those that end before it. -/
theorem mem_takeWhile_addr_ne_iff {l : List LiveRange} (hs : Sorted LiveRange.start LiveRange.end_ l)
    (h : (l.map (·.addr)).Nodup) {r r' : LiveRange} (hr : r ∈ l) :
    r' ∈ l.takeWhile (·.addr != r.addr) ↔ r' ∈ l ∧ r'.end_ < r.end_ := by
  obtain ⟨l₁, l₂, rfl⟩ := List.append_of_mem hr
  rw [takeWhile_addr_ne h]
  constructor
  · intro hr'
    have := hs.hi_lt_lo_of_mem_left hr'
    have := hs.lt r (List.mem_append_right _ List.mem_cons_self)
    exact ⟨List.mem_append_left _ hr', by omega⟩
  · rintro ⟨hr', hlt⟩
    rcases List.mem_append.1 hr' with hr' | hr'
    · exact hr'
    · rcases List.mem_cons.1 hr' with rfl | hr'
      · omega
      · -- a range after `r` ends after `r`
        have := hs.right.hi_lt_lo r' hr'
        have := hs.lt r' (List.mem_append_right _ (List.mem_cons_of_mem _ hr'))
        omega

end Nodes

section SearchStart

variable {i : LiveInterval}

theorem WellFormed.node_of_mem (hw : i.WellFormed) {r : LiveRange} (hr : r ∈ i.ranges) :
    i.node r.addr = some r :=
  find?_addr hw.addr_nodup hr

/-- The search start of a well-formed interval is null or a node of it. -/
theorem WellFormed.searchStart_node (hw : i.WellFormed) :
    i.rangeSearchStart = none ∨
      ∃ r ∈ i.ranges, i.rangeSearchStart = some r.addr ∧ i.node r.addr = some r := by
  rcases hs : i.rangeSearchStart with _ | a
  · exact Or.inl rfl
  · obtain ⟨r, hr, rfl⟩ := List.mem_map.1 (hw.searchStart_mem a hs)
    exact Or.inr ⟨r, hr, rfl, hw.node_of_mem hr⟩

/-- The cache is valid for `q` when every range ending before the node it points to (every
range, when it is null) ends at or before `q`. -/
theorem searchStartValid_iff (hw : i.WellFormed) {q : Nat} :
    i.SearchStartValid q ↔
      ∀ r' ∈ i.ranges, (∀ r ∈ i.rangeSearchStart.bind i.node, r'.end_ < r.end_) → r'.end_ ≤ q := by
  unfold SearchStartValid beforeSearchStart
  rcases hw.searchStart_node with hs | ⟨r, hr, hs, hnode⟩
  · simp [hs]
  · simp only [hs, Option.bind_some, hnode, Option.mem_some_iff, forall_eq']
    constructor
    · intro h r' hr' hlt
      exact h r' ((mem_takeWhile_addr_ne_iff hw.sorted hw.addr_nodup hr).2 ⟨hr', hlt⟩)
    · intro h r' hr'
      obtain ⟨hr', hlt⟩ := (mem_takeWhile_addr_ne_iff hw.sorted hw.addr_nodup hr).1 hr'
      exact h r' hr' hlt

/-- A cache at the first range is valid for every position. -/
theorem searchStartValid_of_first (hw : i.WellFormed) (hs : i.rangeSearchStart = i.firstRange)
    (q : Nat) : i.SearchStartValid q := by
  unfold SearchStartValid beforeSearchStart
  obtain ⟨f, rest, hf⟩ := List.exists_cons_of_ne_nil hw.ne_nil
  rw [hs, firstRange, hf]
  simp

theorem SearchStartValid.mono {q q' : Nat} (h : i.SearchStartValid q) (hq : q ≤ q') :
    i.SearchStartValid q' :=
  fun r hr => Nat.le_trans (h r hr) hq

theorem beforeSearchStart_append_fromNode (i : LiveInterval) :
    i.beforeSearchStart ++ i.fromNode i.rangeSearchStart = i.ranges := by
  unfold beforeSearchStart fromNode
  cases i.rangeSearchStart with
  | none => exact List.append_nil _
  | some a => exact List.takeWhile_append_dropWhile

end SearchStart

section Covers

variable {i : LiveInterval}

theorem findRangeAtOrAfter_firstRange (i : LiveInterval) (p : Nat) :
    i.findRangeAtOrAfter p i.firstRange = i.ranges.dropWhile (·.end_ ≤ p) := by
  unfold findRangeAtOrAfter firstRange
  cases hr : i.ranges with
  | nil => rfl
  | cons f rest => simp [fromNode, hr]

/-- From a valid cache, `FindRangeAtOrAfter` finds what it finds from the first range. -/
theorem findRangeAtOrAfter_searchStart {q p : Nat} (h : i.SearchStartValid q) (hp : q ≤ p) :
    i.findRangeAtOrAfter p i.rangeSearchStart = i.ranges.dropWhile (·.end_ ≤ p) := by
  conv_rhs => rw [← beforeSearchStart_append_fromNode i]
  rw [dropWhile_append_of_hi_le fun r hr => Nat.le_trans (h r hr) hp]
  rfl

/-- The range found at or after `p` starts at or before it exactly when `p` is covered. -/
theorem startsAtOrBefore_iff (hs : Sorted LiveRange.start LiveRange.end_ i.ranges) (p : Nat) :
    startsAtOrBefore p (i.ranges.dropWhile (·.end_ ≤ p)) = true ↔ i.Covered p := by
  unfold Covered
  rw [covered_iff_dropWhile hs p]
  cases i.ranges.dropWhile (·.end_ ≤ p) with
  | nil => simp [startsAtOrBefore]
  | cons c rest => simp [startsAtOrBefore]

theorem coversSlow_iff (hw : i.WellFormed) (p : Nat) : i.coversSlow p = true ↔ i.Covered p := by
  unfold coversSlow
  rw [findRangeAtOrAfter_firstRange]
  exact startsAtOrBefore_iff hw.sorted p

/-- `Covers(p)` from a cache valid for a position at or before `p` answers as `CoversSlow(p)`. -/
theorem covers_fst {q p : Nat} (h : i.SearchStartValid q) (hp : q ≤ p) :
    (i.covers p).1 = i.coversSlow p := by
  unfold covers coversSlow
  rw [findRangeAtOrAfter_searchStart h hp, findRangeAtOrAfter_firstRange]

@[simp] theorem covers_snd_ranges (i : LiveInterval) (p : Nat) : (i.covers p).2.ranges = i.ranges :=
  rfl

theorem covers_snd_rangeSearchStart (i : LiveInterval) (p : Nat) :
    (i.covers p).2.rangeSearchStart =
      (i.findRangeAtOrAfter p i.rangeSearchStart).head?.map (·.addr) :=
  rfl

/-- `Covers` moves the cache to a node of the interval. -/
theorem WellFormed.covers (hw : i.WellFormed) (p : Nat) : (i.covers p).2.WellFormed := by
  refine ⟨hw.ne_nil, hw.sorted, hw.addr_nodup, hw.lastRange_eq, fun a ha => ?_⟩
  rw [covers_snd_rangeSearchStart, Option.mem_def, Option.map_eq_some_iff] at ha
  obtain ⟨c, hc, rfl⟩ := ha
  -- the range found is one of the list from the cache, itself part of the ranges
  have hmem : c ∈ i.fromNode i.rangeSearchStart :=
    (List.dropWhile_suffix _).subset (List.mem_of_mem_head? hc)
  rw [covers_snd_ranges, ← beforeSearchStart_append_fromNode i]
  exact List.mem_map_of_mem (List.mem_append_right _ hmem)

/-- After `Covers(p)` from a valid cache, the cache is valid for `p`. -/
theorem searchStartValid_covers (hw : i.WellFormed) {q p : Nat} (h : i.SearchStartValid q)
    (hp : q ≤ p) : (i.covers p).2.SearchStartValid p := by
  unfold SearchStartValid beforeSearchStart
  rw [covers_snd_rangeSearchStart, findRangeAtOrAfter_searchStart h hp, covers_snd_ranges]
  cases hd : i.ranges.dropWhile (·.end_ ≤ p) with
  | nil =>
    -- nothing found: every range ends at or before `p`
    intro r hr
    simpa using List.dropWhile_eq_nil_iff.1 hd r hr
  | cons c rest =>
    have hsplit : i.ranges = i.ranges.takeWhile (·.end_ ≤ p) ++ c :: rest := by
      rw [← hd, List.takeWhile_append_dropWhile]
    intro r hr
    simp only [List.head?_cons, Option.map_some] at hr
    rw [hsplit, takeWhile_addr_ne (hsplit ▸ hw.addr_nodup)] at hr
    exact hi_le_of_mem_takeWhile hr

end Covers

theorem covered_iff {i : LiveInterval} {q : Nat} :
    i.Covered q ↔ IntervalList.Covered LiveRange.start LiveRange.end_ i.ranges q :=
  Iff.rfl

/-- The last node keeps its address when the first is rewritten in place. -/
theorem getLast?_map_addr_cons {f f' : LiveRange} (h : f'.addr = f.addr) (rest : List LiveRange) :
    (f' :: rest).getLast?.map (·.addr) = (f :: rest).getLast?.map (·.addr) := by
  cases rest with
  | nil => simp [h]
  | cons x rest => simp [List.getLast?_cons]

section AddRange

variable {i : LiveInterval} {start end_ newRange : Nat}

/-- What `AddRange(start, end)` does to a well-formed interval whose first range starts at or
after `end`: it extends the first range down to `start`, or puts a new range in front. -/
theorem addRange_cases (newRange : Nat) (hw : i.WellFormed) (hse : start < end_)
    (hend : ∀ f ∈ i.ranges.head?, end_ ≤ f.start) :
    ∃ f rest, i.ranges = f :: rest ∧
      ((f.start = end_ ∧
          i.addRange start end_ newRange = { i with ranges := { f with start := start } :: rest }) ∨
        (end_ < f.start ∧
          i.addRange start end_ newRange =
            { i with ranges := ⟨newRange, start, end_⟩ :: f :: rest,
                     rangeSearchStart := some newRange })) := by
  obtain ⟨f, rest, hf⟩ := List.exists_cons_of_ne_nil hw.ne_nil
  have hle : end_ ≤ f.start := hend f (by rw [hf]; rfl)
  have hlt : f.start < f.end_ := hw.sorted.lt f (by rw [hf]; exact List.mem_cons_self)
  refine ⟨f, rest, hf, ?_⟩
  unfold addRange
  rw [hf]
  dsimp only
  by_cases heq : f.start = end_
  · exact Or.inl ⟨heq, if_pos heq⟩
  · -- the branch of a range given twice needs `end ≤ start`
    rw [if_neg heq, if_neg (by omega)]
    exact Or.inr ⟨by omega, rfl⟩

theorem WellFormed.addRange (hw : i.WellFormed) (hse : start < end_)
    (hend : ∀ f ∈ i.ranges.head?, end_ ≤ f.start) (hfresh : newRange ∉ i.ranges.map (·.addr)) :
    (i.addRange start end_ newRange).WellFormed := by
  obtain ⟨f, rest, hf, ⟨heq, hadd⟩ | ⟨hlt, hadd⟩⟩ := addRange_cases newRange hw hse hend
  all_goals
    have hs := hw.sorted
    have hnd := hw.addr_nodup
    rw [hf] at hs hnd
    rw [hadd]
  · refine ⟨List.cons_ne_nil _ _, ?_, by simpa using hnd, ?_, ?_⟩
    · obtain ⟨hlt, hhead, hrest⟩ := sorted_cons_iff.1 hs
      exact sorted_cons_iff.2 ⟨by dsimp only; omega, hhead, hrest⟩
    · dsimp only
      rw [getLast?_map_addr_cons (show (⟨f.addr, start, f.end_⟩ : LiveRange).addr = f.addr from rfl),
        ← hf]
      exact hw.lastRange_eq
    · intro a ha
      have := hw.searchStart_mem a ha
      rw [hf] at this
      simpa using this
  · refine ⟨List.cons_ne_nil _ _, sorted_cons_iff.2 ⟨hse, fun s hs => ?_, hs⟩, ?_, ?_, ?_⟩
    · rw [List.head?_cons, Option.mem_some_iff] at hs
      rw [← hs]
      exact hlt
    · rw [hf] at hfresh
      rw [List.map_cons]
      exact List.nodup_cons.2 ⟨hfresh, hnd⟩
    · rw [show (⟨newRange, start, end_⟩ :: f :: rest).getLast? = (f :: rest).getLast? from
        List.getLast?_cons_cons, ← hf]
      exact hw.lastRange_eq
    · intro a ha
      rw [Option.mem_some_iff] at ha
      rw [← ha]
      exact List.mem_cons_self

/-- `AddRange(start, end)` adds `[start, end)` to the covered set. -/
theorem covered_addRange (hw : i.WellFormed) (hse : start < end_)
    (hend : ∀ f ∈ i.ranges.head?, end_ ≤ f.start) (q : Nat) :
    (i.addRange start end_ newRange).Covered q ↔ i.Covered q ∨ (start ≤ q ∧ q < end_) := by
  obtain ⟨f, rest, hf, ⟨heq, hadd⟩ | ⟨hlt, hadd⟩⟩ := addRange_cases newRange hw hse hend
  have hlt : f.start < f.end_ := hw.sorted.lt f (hf ▸ List.mem_cons_self)
  all_goals
    rw [hadd, covered_iff, covered_iff, hf]
    simp only [covered_cons]
  · -- the first range now starts at `start`; it used to start at `end`
    grind
  · grind

theorem SearchStartValid.addRange (hw : i.WellFormed) (hse : start < end_)
    (hend : ∀ f ∈ i.ranges.head?, end_ ≤ f.start) {q : Nat} (h : i.SearchStartValid q) :
    (i.addRange start end_ newRange).SearchStartValid q := by
  obtain ⟨f, rest, hf, ⟨heq, hadd⟩ | ⟨hlt, hadd⟩⟩ := addRange_cases newRange hw hse hend
  · -- the cache is where it was, and the ends are the same
    rw [hadd]
    unfold SearchStartValid beforeSearchStart at h ⊢
    rw [hf] at h
    dsimp only
    cases hs : i.rangeSearchStart with
    | none =>
      rw [hs] at h
      simpa using h
    | some a =>
      rw [hs] at h
      by_cases ha : f.addr = a
      · simp [ha]
      · simpa [ha] using h
  · rw [hadd]
    unfold SearchStartValid beforeSearchStart
    simp

end AddRange

section AddLoopRange

variable {i : LiveInterval} {start end_ newRange : Nat}

/-- The loop of `AddLoopRange` stops at the first range that does not end before `end`;
`last_in_loop` is the last range it passed. -/
theorem afterLoopSearch_eq (e : Nat) (acc : Option LiveRange) (l : List LiveRange) :
    afterLoopSearch e acc l =
      ((l.takeWhile (·.end_ < e)).getLast?.or acc, l.dropWhile (·.end_ < e)) := by
  induction l generalizing acc with
  | nil => rfl
  | cons x l ih =>
    unfold afterLoopSearch
    by_cases hx : x.end_ < e
    · rw [if_pos hx, ih, List.takeWhile_cons_of_pos (by simpa using hx),
        List.dropWhile_cons_of_pos (by simpa using hx), List.getLast?_cons]
      cases (l.takeWhile (·.end_ < e)).getLast? <;> rfl
    · rw [if_neg hx, List.takeWhile_cons_of_neg (by simpa using hx),
        List.dropWhile_cons_of_neg (by simpa using hx)]
      rfl

/-- What `AddLoopRange(start, end)` does when `end` reaches the first range: one range for all,
the range after the loop extended down to `start`, or the last range in the loop widened to
`[start, end)` before a lifetime hole. -/
theorem addLoopRange_cases (newRange : Nat)
    (hfirst : ∀ f ∈ i.ranges.head?, start ≤ f.start ∧ f.start ≤ end_) :
    (i.ranges.dropWhile (·.end_ < end_) = [] ∧
        i.addLoopRange start end_ newRange =
          some { i with ranges := [⟨newRange, start, end_⟩], lastRange := some newRange,
                        rangeSearchStart := some newRange }) ∨
      (∃ b rest, i.ranges.dropWhile (·.end_ < end_) = b :: rest ∧ b.start ≤ end_ ∧
        i.addLoopRange start end_ newRange =
          some { i with ranges := { b with start := start } :: rest,
                        rangeSearchStart := some b.addr }) ∨
      (∃ l b rest, (i.ranges.takeWhile (·.end_ < end_)).getLast? = some l ∧
        i.ranges.dropWhile (·.end_ < end_) = b :: rest ∧ end_ < b.start ∧
        i.addLoopRange start end_ newRange =
          some { i with ranges := { l with start := start, end_ := end_ } :: b :: rest,
                        rangeSearchStart := some l.addr }) := by
  unfold addLoopRange
  rw [afterLoopSearch_eq, Option.or_none]
  cases hA : i.ranges.dropWhile (·.end_ < end_) with
  | nil => exact Or.inl ⟨rfl, rfl⟩
  | cons b rest =>
    dsimp only
    by_cases hb : b.start ≤ end_
    · exact Or.inr (Or.inl ⟨b, rest, rfl, hb, if_pos hb⟩)
    · rw [if_neg hb]
      cases hl : (i.ranges.takeWhile (·.end_ < end_)).getLast? with
      | none =>
        -- nothing passed: `after_loop` is the first range, which starts at or before `end`
        have hT : i.ranges.takeWhile (·.end_ < end_) = [] := List.getLast?_eq_none_iff.1 hl
        have hranges := List.takeWhile_append_dropWhile (p := (·.end_ < end_)) (l := i.ranges)
        rw [hT, hA, List.nil_append] at hranges
        exact absurd (hfirst b (by rw [← hranges]; rfl)).2 hb
      | some l => exact Or.inr (Or.inr ⟨l, b, rest, rfl, rfl, by omega, rfl⟩)

/-- The ranges the loop passes lie in `[start, end)`. -/
theorem covered_takeWhile_end_lt (hstarts : ∀ r ∈ i.ranges, start ≤ r.start) {q : Nat}
    (h : IntervalList.Covered LiveRange.start LiveRange.end_ (i.ranges.takeWhile (·.end_ < end_)) q) :
    start ≤ q ∧ q < end_ := by
  obtain ⟨r, hr, hrq, hqr⟩ := h
  have hend : r.end_ < end_ := by simpa using List.mem_takeWhile_imp hr
  have := hstarts r ((List.takeWhile_sublist _).subset hr)
  omega

/-- `AddLoopRange(start, end)` with `start` at or before the first range and `end` reaching it
keeps the interval well formed, adds `[start, end)` to the covered set, and moves the cache to
the first range. -/
theorem addLoopRange_spec (newRange : Nat) (hw : i.WellFormed)
    (hfirst : ∀ f ∈ i.ranges.head?, start ≤ f.start ∧ f.start ≤ end_) :
    ∃ i', i.addLoopRange start end_ newRange = some i' ∧ i'.WellFormed ∧
      (∀ q, i'.Covered q ↔ i.Covered q ∨ (start ≤ q ∧ q < end_)) ∧ ∀ q, i'.SearchStartValid q := by
  obtain ⟨f, frest, hf⟩ := List.exists_cons_of_ne_nil hw.ne_nil
  have hs : Sorted LiveRange.start LiveRange.end_ (f :: frest) := hf ▸ hw.sorted
  -- every range starts at or after the first, so at or after `start`
  have hstarts : ∀ r ∈ i.ranges, start ≤ r.start := fun r hr => by
    have := (hfirst f (by rw [hf]; rfl)).1
    have := hs.lo_le_lo (hf ▸ hr : r ∈ f :: frest)
    omega
  have hsplit := List.takeWhile_append_dropWhile (p := (·.end_ < end_)) (l := i.ranges)
  have hTcov : ∀ q, IntervalList.Covered LiveRange.start LiveRange.end_
      (i.ranges.takeWhile (·.end_ < end_)) q → start ≤ q ∧ q < end_ :=
    fun q => covered_takeWhile_end_lt hstarts
  rcases addLoopRange_cases newRange hfirst with
    ⟨hA, hadd⟩ | ⟨b, rest, hA, hb, hadd⟩ | ⟨l, b, rest, hl, hA, hb, hadd⟩
  · -- every range ends before `end`: one range `[start, end)` for all
    have hends : ∀ r ∈ i.ranges, r.end_ < end_ := fun r hr => by
      simpa using List.dropWhile_eq_nil_iff.1 hA r hr
    have hse : start < end_ := by
      have := hs.lt f List.mem_cons_self
      have := hends f (by rw [hf]; exact List.mem_cons_self)
      have := hstarts f (by rw [hf]; exact List.mem_cons_self)
      omega
    refine ⟨_, hadd, ⟨List.cons_ne_nil _ _, sorted_cons_iff.2 ⟨hse, by simp, sorted_nil⟩,
      List.nodup_singleton _, rfl, fun a ha => ?_⟩, fun q => ?_,
      fun q r hr => by simp [beforeSearchStart] at hr⟩
    · rw [Option.mem_some_iff] at ha
      subst ha
      exact List.mem_singleton_self _
    rw [covered_iff, covered_iff, covered_cons]
    simp only [covered_nil, or_false]
    constructor
    · exact Or.inr
    · rintro (⟨r, hr, hrq, hqr⟩ | hq)
      · have := hstarts r hr
        have := hends r hr
        omega
      · exact hq
  · -- the range after the loop now starts at `start`
    have hsA : Sorted LiveRange.start LiveRange.end_ (b :: rest) := hA ▸ (hsplit ▸ hw.sorted).right
    have hbend : end_ ≤ b.end_ := by simpa using eq_false_of_dropWhile_eq_cons hA
    have hbmem : b ∈ i.ranges := by rw [← hsplit, hA]; exact List.mem_append_right _ List.mem_cons_self
    have hsb := hstarts b hbmem
    have hnd : ((b :: rest).map (·.addr)).Nodup := by
      have := hw.addr_nodup
      rw [← hsplit, hA, List.map_append] at this
      exact (List.nodup_append.1 this).2.1
    refine ⟨_, hadd, ⟨List.cons_ne_nil _ _, ?_, by simpa using hnd, ?_, ?_⟩, fun q => ?_,
      fun q r hr => by simp [beforeSearchStart] at hr⟩
    · obtain ⟨hlt, hhead, hrest⟩ := sorted_cons_iff.1 hsA
      exact sorted_cons_iff.2 ⟨by dsimp only; omega, hhead, hrest⟩
    · dsimp only
      rw [hw.lastRange_eq, getLast?_map_addr_cons
        (show (⟨b.addr, start, b.end_⟩ : LiveRange).addr = b.addr from rfl), ← hA]
      conv_lhs => rw [← hsplit]
      rw [List.getLast?_append_of_ne_nil _ (by rw [hA]; exact List.cons_ne_nil _ _)]
    · intro a ha
      rw [Option.mem_some_iff] at ha
      rw [← ha]
      exact List.mem_cons_self
    · rw [covered_iff, covered_iff, ← hsplit, hA, covered_cons, covered_append, covered_cons]
      have := hTcov q
      grind
  · -- the last range in the loop becomes `[start, end)`, before the hole
    obtain ⟨T', hT'⟩ := List.getLast?_eq_some_iff.1 hl
    have hranges : i.ranges = T' ++ l :: b :: rest := by
      rw [← hsplit, hT', hA, List.append_assoc, List.singleton_append]
    have hlmem : l ∈ i.ranges.takeWhile (·.end_ < end_) := List.mem_of_getLast? hl
    have hlend : l.end_ < end_ := by simpa using List.mem_takeWhile_imp hlmem
    have hsl := hstarts l (by rw [hranges]; exact List.mem_append_right _ List.mem_cons_self)
    have hll : l.start < l.end_ := hw.sorted.lt l (by rw [hranges]; exact List.mem_append_right _ List.mem_cons_self)
    have hsA : Sorted LiveRange.start LiveRange.end_ (b :: rest) := hA ▸ (hsplit ▸ hw.sorted).right
    have hnd : ((l :: b :: rest).map (·.addr)).Nodup := by
      have := hw.addr_nodup
      rw [hranges, List.map_append] at this
      exact (List.nodup_append.1 this).2.1
    refine ⟨_, hadd, ⟨List.cons_ne_nil _ _, sorted_cons_iff.2 ⟨by dsimp only; omega,
      fun s hs => ?_, hsA⟩, by simpa using hnd, ?_, ?_⟩, fun q => ?_,
      fun q r hr => by simp [beforeSearchStart] at hr⟩
    · rw [List.head?_cons, Option.mem_some_iff] at hs
      rw [← hs]
      exact hb
    · dsimp only
      rw [hw.lastRange_eq, hranges, List.getLast?_append_of_ne_nil _ (List.cons_ne_nil _ _),
        List.getLast?_cons_cons, List.getLast?_cons_cons]
    · intro a ha
      rw [Option.mem_some_iff] at ha
      rw [← ha]
      exact List.mem_cons_self
    · rw [covered_iff, covered_iff, ← hsplit, hA, covered_cons, covered_append]
      have := hTcov q
      grind

end AddLoopRange

end LiveInterval

end Art
