import Art.Lib.LinearProbing
import Art.Proofs.HashSet

/-!
# `HashSet`: the probing invariant, and what `find`, `erase` and `insert` do

`Verify()` counts the elements that `FirstAvailableSlot` from their ideal index would not put back
where they are.  It is zero exactly when the table is probe-closed (`verify_eq_zero_iff`): no free
slot lies between an element's ideal index and its slot.

On a probe-closed table with a free slot, `find` returns the slot of an element equal to the key
under `Pred`, or `end()` when there is none (`find_returns_equal_element`).  `erase` shifts
elements back into the hole until its walk meets a free slot: the table stays probe-closed and
holds one element less (`erase_keeps_probe_invariant`).  `insert`, after the `Expand` it may do
first, keeps the table probe-closed and adds the element exactly when no equal one is there
(`insert_keeps_probe_invariant`).

`Pred` must agree with the hash: equal elements have equal hashes, which is what the source asks of
a `HashFn` and a `Pred`.
-/

namespace Art

namespace HashSet

open LinearProbing

variable {T : Type} (emptyFn : EmptyFn T) (hashFn : T → Nat) (pred : T → T → Bool)

/-- The ideal index of an element: `IndexForHash(hashfn_(element))`. -/
def idealIndex (s : HashSet T) (element : T) : Nat := s.indexForHash (hashFn element)

/-- The probing invariant that `Verify()` checks. -/
def Probed (s : HashSet T) : Prop :=
  ProbeInv s.numBuckets emptyFn.isEmpty (idealIndex hashFn s) s.data

/-- The elements of the non-empty slots. -/
def elements (s : HashSet T) : Multiset T := contents s.numBuckets emptyFn.isEmpty s.data

/-- An iterator that is `end()` or points at an element. -/
def IsIterator (s : HashSet T) (it : Nat) : Prop :=
  it = s.numBuckets ∨ (it < s.numBuckets ∧ emptyFn.isEmpty (s.data it) = false)

variable {emptyFn hashFn pred}

theorem indexForHash_lt {s : HashSet T} (hpos : 0 < s.numBuckets) (hash : Nat) :
    s.indexForHash hash < s.numBuckets := by
  rw [indexForHash, if_neg (by omega)]
  exact Nat.mod_lt _ hpos

@[simp] theorem idealIndex_data (s : HashSet T) (d : Nat → T) :
    idealIndex hashFn { s with data := d } = idealIndex hashFn s := rfl

/-! ## The probe loops -/

/-- `FirstAvailableSlot` returns the first free slot from where it starts. -/
theorem firstAvailableSlotLoop_spec {s : HashSet T} :
    ∀ {fuel a j : Nat}, a < s.numBuckets → firstAvailableSlotLoop emptyFn s fuel a = some j →
      j < s.numBuckets ∧ emptyFn.isEmpty (s.data j) = true ∧
        ∀ p < s.numBuckets, fwd s.numBuckets a p < fwd s.numBuckets a j →
          emptyFn.isEmpty (s.data p) = false
  | 0, _, _, _, h => by cases h
  | fuel + 1, a, j, ha, h => by
    unfold firstAvailableSlotLoop at h
    split at h
    · cases h
      refine ⟨ha, ‹_›, fun p _ hp => ?_⟩
      rw [fwd_self] at hp
      omega
    · rename_i htaken
      have hnext := nextIndex_lt ha
      obtain ⟨hj, hjfree, hbefore⟩ := firstAvailableSlotLoop_spec hnext h
      have hja : j ≠ a := by
        rintro rfl
        exact htaken hjfree
      refine ⟨hj, hjfree, fun p hp hpj => ?_⟩
      by_cases hpa : p = a
      · rw [hpa]
        simpa using htaken
      · -- one step on, every distance from the next slot is one less
        rw [nextIndex_eq_mod ha] at hbefore
        have h1 := fwd_succ_left ha hp hpa
        have h2 := fwd_succ_left ha hj hja
        exact hbefore p hp (by omega)

/-- `FirstAvailableSlot` returns when a free slot lies within its fuel. -/
theorem firstAvailableSlotLoop_isSome {s : HashSet T} {f : Nat} (hf : f < s.numBuckets)
    (hfree : emptyFn.isEmpty (s.data f) = true) :
    ∀ {fuel a : Nat}, a < s.numBuckets → fwd s.numBuckets a f < fuel →
      (firstAvailableSlotLoop emptyFn s fuel a).isSome
  | 0, _, _, h => absurd h (Nat.not_lt_zero _)
  | fuel + 1, a, ha, h => by
    unfold firstAvailableSlotLoop
    split
    · rfl
    · rename_i htaken
      have hfa : f ≠ a := by
        rintro rfl
        exact htaken hfree
      have := fwd_succ_left ha hf hfa
      rw [← nextIndex_eq_mod ha] at this
      exact firstAvailableSlotLoop_isSome hf hfree (nextIndex_lt ha) (by omega)

/-- The probe of `FindIndexImpl` passes only non-empty slots whose elements differ from the key,
and stops at a free slot or at an equal element. -/
theorem findIndexLoop_spec {s : HashSet T} {element : T} :
    ∀ {fuel a : Nat} {r : Bool × Nat}, a < s.numBuckets →
      findIndexLoop emptyFn pred s element fuel a = some r →
      r.2 < s.numBuckets ∧
        (∀ p < s.numBuckets, fwd s.numBuckets a p < fwd s.numBuckets a r.2 →
          emptyFn.isEmpty (s.data p) = false ∧ pred (s.data p) element = false) ∧
        (r.1 = true → emptyFn.isEmpty (s.data r.2) = false ∧ pred (s.data r.2) element = true) ∧
        (r.1 = false → emptyFn.isEmpty (s.data r.2) = true)
  | 0, _, _, _, h => by cases h
  | fuel + 1, a, r, ha, h => by
    unfold findIndexLoop at h
    dsimp only at h
    split at h
    · cases h
      refine ⟨ha, fun p _ hp => ?_, (fun h => by cases h), fun _ => ‹_›⟩
      rw [fwd_self] at hp
      omega
    · rename_i hslot
      split at h
      · cases h
        refine ⟨ha, fun p _ hp => ?_, fun _ => ⟨by simpa using hslot, ‹_›⟩, (fun h => by cases h)⟩
        rw [fwd_self] at hp
        omega
      · rename_i hne
        have hnext := nextIndex_lt ha
        obtain ⟨hr, hbefore, htrue, hfalse⟩ := findIndexLoop_spec hnext h
        -- the slot where the probe stops is not its start, which it passed
        have hra : r.2 ≠ a := by
          intro hra
          cases hb : r.1
          · exact hslot (hra ▸ hfalse hb)
          · exact hne (hra ▸ (htrue hb).2)
        refine ⟨hr, fun p hp hpr => ?_, htrue, hfalse⟩
        by_cases hpa : p = a
        · rw [hpa]
          exact ⟨by simpa using hslot, by simpa using hne⟩
        · rw [nextIndex_eq_mod ha] at hbefore
          have h1 := fwd_succ_left ha hp hpa
          have h2 := fwd_succ_left ha hr hra
          exact hbefore p hp (by omega)

/-! ## `Verify()` -/

/-- `Verify()` is zero exactly on a probe-closed table. -/
theorem verify_eq_zero_iff (hempty : emptyFn.isEmpty emptyFn.makeEmpty = true) (s : HashSet T) :
    verify emptyFn hashFn s = 0 ↔ Probed emptyFn hashFn s := by
  rcases Nat.eq_zero_or_pos s.numBuckets with h0 | hpos
  · simp [verify, Probed, ProbeInv, h0]
  -- for a non-empty element at `i`, the search with slot `i` emptied finds `i` exactly when the
  -- slots from the ideal index up to `i` are non-empty
  have hslot : ∀ i < s.numBuckets, emptyFn.isEmpty (s.data i) = false →
      (firstAvailableSlot emptyFn { s with data := Function.update s.data i emptyFn.makeEmpty }
          (idealIndex hashFn s (s.data i)) = some i ↔
        ∀ j < s.numBuckets, fwd s.numBuckets (idealIndex hashFn s (s.data i)) j ≤
          fwd s.numBuckets (idealIndex hashFn s (s.data i)) i → emptyFn.isEmpty (s.data j) = false) := by
    intro i hi ht
    set a := idealIndex hashFn s (s.data i) with ha_def
    have ha : a < s.numBuckets := indexForHash_lt hpos _
    set s' : HashSet T := { s with data := Function.update s.data i emptyFn.makeEmpty }
    have hfree' : emptyFn.isEmpty (s'.data i) = true := by simp [s', hempty]
    obtain ⟨j, hj⟩ := Option.isSome_iff_exists.1
      (firstAvailableSlotLoop_isSome (s := s') hi hfree' ha (fwd_lt ha hi))
    obtain ⟨hjl, hjfree, hbefore⟩ := firstAvailableSlotLoop_spec (s := s') ha hj
    unfold firstAvailableSlot
    rw [hj, Option.some.injEq]
    constructor
    · rintro rfl p hp hpi
      by_cases hpe : p = j
      · rwa [hpe]
      · have := hbefore p hp (lt_of_le_of_ne hpi fun h => hpe (fwd_inj ha hp hjl h))
        simpa [s', Function.update_of_ne hpe] using this
    · intro hall
      -- `j` is free with the element removed, so it is `i` or a free slot of the table
      have hji : fwd s.numBuckets a i ≤ fwd s.numBuckets a j := by
        by_contra hlt
        by_cases hje : j = i
        · rw [hje] at hlt
          exact hlt le_rfl
        · have := hall j hjl (le_of_lt (Nat.lt_of_not_le hlt))
          simp [s', Function.update_of_ne hje, this] at hjfree
      rcases Nat.lt_or_ge (fwd s.numBuckets a i) (fwd s.numBuckets a j) with hlt | hge
      · have := hbefore i hi hlt
        rw [hfree'] at this
        cases this
      · exact fwd_inj ha hjl hi (by omega)
  simp only [verify, List.countP_eq_zero, List.mem_range, Bool.and_eq_true, Bool.not_eq_true',
    bne_iff_ne, ne_eq, not_and, not_not, Probed, ProbeInv]
  constructor
  · intro h k hk hkt
    exact (hslot k hk hkt).1 (h k hk hkt)
  · intro h i hi hit
    exact (hslot i hi hit).2 (h i hi hit)

/-! ## `find` -/

/-- A probe from the key's ideal index that stops at a free slot has passed every element equal to
the key, so on a probe-closed table there is none. -/
theorem no_equal_of_findIndexLoop_false {s : HashSet T} (hp : Probed emptyFn hashFn s)
    (hpred : ∀ a b, pred a b = true → hashFn a = hashFn b) {key : T} {fuel j : Nat}
    (hpos : 0 < s.numBuckets)
    (h : findIndexLoop emptyFn pred s key fuel (s.indexForHash (hashFn key)) = some (false, j)) :
    ∀ k < s.numBuckets, emptyFn.isEmpty (s.data k) = false → pred (s.data k) key = false := by
  obtain ⟨hjl, hbefore, -, hfalse⟩ := findIndexLoop_spec (indexForHash_lt hpos _) h
  intro k hk hkt
  by_contra hkeq
  simp only [Bool.not_eq_false] at hkeq
  -- an equal element has the key's ideal index, so the probe passed it before the free slot
  have hhome : idealIndex hashFn s (s.data k) = s.indexForHash (hashFn key) := by
    rw [idealIndex, hpred _ _ hkeq]
  have hlt : fwd s.numBuckets (s.indexForHash (hashFn key)) k <
      fwd s.numBuckets (s.indexForHash (hashFn key)) j := by
    by_contra hge
    have := hp k hk hkt j hjl (by rw [hhome]; omega)
    rw [hfalse rfl] at this
    cases this
  rw [(hbefore k hk hlt).2] at hkeq
  cases hkeq

/-- The result of the probe of `find`, for a probe-closed table with a free slot: an equal element,
or a free slot when no element is equal to the key. -/
theorem findIndexImpl_spec {s : HashSet T} (hp : Probed emptyFn hashFn s)
    (hpred : ∀ a b, pred a b = true → hashFn a = hashFn b) {f : Nat} (hf : f < s.numBuckets)
    (hfree : emptyFn.isEmpty (s.data f) = true) (key : T) :
    ∃ r, findIndexImpl emptyFn pred s key (hashFn key) = some r ∧ r.2 < s.numBuckets ∧
      ((r.1 = true ∧ emptyFn.isEmpty (s.data r.2) = false ∧ pred (s.data r.2) key = true) ∨
        (r.1 = false ∧ emptyFn.isEmpty (s.data r.2) = true ∧
          ∀ k < s.numBuckets, emptyFn.isEmpty (s.data k) = false → pred (s.data k) key = false)) := by
  have hpos : 0 < s.numBuckets := by omega
  have ha := indexForHash_lt hpos (hashFn key)
  obtain ⟨r, hr⟩ := Option.isSome_iff_exists.1 (findIndexLoop_isSome emptyFn pred ha hf hfree)
  obtain ⟨hrl, -, htrue, hfalse⟩ := findIndexLoop_spec ha hr
  refine ⟨r, hr, hrl, ?_⟩
  obtain ⟨b, j⟩ := r
  cases b with
  | false => exact .inr ⟨rfl, hfalse rfl, no_equal_of_findIndexLoop_false hp hpred hpos hr⟩
  | true => exact .inl ⟨rfl, htrue rfl⟩

/-- On a probe-closed table with a free slot, `find` returns the slot of an element equal to the
key, or `end()` when no element is. -/
theorem find_returns_equal_element {s : HashSet T} (hp : Probed emptyFn hashFn s)
    (hpred : ∀ a b, pred a b = true → hashFn a = hashFn b) {f : Nat} (hf : f < s.numBuckets)
    (hfree : emptyFn.isEmpty (s.data f) = true) (key : T) :
    ∃ j, find emptyFn hashFn pred s key = some j ∧
      ((j < s.numBuckets ∧ emptyFn.isEmpty (s.data j) = false ∧ pred (s.data j) key = true) ∨
        (j = s.numBuckets ∧
          ∀ k < s.numBuckets, emptyFn.isEmpty (s.data k) = false → pred (s.data k) key = false)) := by
  obtain ⟨r, hr, hrl, hcases⟩ := findIndexImpl_spec hp hpred hf hfree key
  unfold find findIndex
  rw [if_neg (by omega), hr]
  rcases hcases with ⟨h1, ht, hkey⟩ | ⟨h1, -, hnone⟩
  · exact ⟨r.2, by simp [h1], .inl ⟨hrl, ht, hkey⟩⟩
  · exact ⟨s.numBuckets, by simp [h1], .inr ⟨rfl, hnone⟩⟩

/-! ## `erase` -/

/-- `NextNonEmptySlot` stops at the next element or at `end()`. -/
theorem nextNonEmptySlotLoop_isIterator {s : HashSet T} :
    ∀ {fuel index : Nat}, index < s.numBuckets → s.numBuckets ≤ index + fuel →
      IsIterator emptyFn s (nextNonEmptySlotLoop emptyFn s fuel index)
  | 0, _, hi, hfuel => absurd hfuel (by omega)
  | fuel + 1, index, hi, hfuel => by
    unfold nextNonEmptySlotLoop
    split
    · rename_i hnext
      exact nextNonEmptySlotLoop_isIterator hnext.1 (by omega)
    · rename_i hstop
      rcases Nat.lt_or_ge (index + 1) s.numBuckets with hlt | hge
      · exact .inr ⟨hlt, by simpa [hlt] using hstop⟩
      · exact .inl (by omega)

/-- The walk of `erase` from the hole `hole`, having passed up to `x`, on its way from `start` to
the free slot `f`.  It empties a slot at or before `f` and leaves a probe-closed table holding what
the old one held but the hole's element; `f` stays free, and once an element has moved into `start`
that slot stays taken, which is what the returned `filled` says. -/
theorem eraseLoop_spec (hempty : emptyFn.isEmpty emptyFn.makeEmpty = true) {start f : Nat} :
    ∀ {fuel : Nat} {s : HashSet T} {hole x : Nat} {filled : Bool},
      ShiftInv s.numBuckets emptyFn.isEmpty (idealIndex hashFn s) s.data hole x →
      start < s.numBuckets → f < s.numBuckets → emptyFn.isEmpty (s.data f) = true →
      fwd s.numBuckets x f ≤ fuel →
      fwd s.numBuckets start hole ≤ fwd s.numBuckets start x →
      fwd s.numBuckets start x < fwd s.numBuckets start f →
      (filled = false → hole = start) →
      (filled = true → hole ≠ start ∧ emptyFn.isEmpty (s.data start) = false) →
      ∃ d b, eraseLoop emptyFn hashFn s fuel hole x filled = some ({ s with data := d }, b) ∧
        ProbeInv s.numBuckets emptyFn.isEmpty (idealIndex hashFn s) d ∧
        contents s.numBuckets emptyFn.isEmpty d =
          contentsExcept s.numBuckets emptyFn.isEmpty s.data hole ∧
        emptyFn.isEmpty (d f) = true ∧ (b = true → emptyFn.isEmpty (d start) = false)
  | 0, s, hole, x, filled, hs, _, hf, hfree, hfuel, _, _, _, _ => by
    -- without fuel the walk would stand on the free slot `f`, but it stands on a taken one
    have hxf : x = f := (fwd_eq_zero_iff hs.x_lt).1 (by omega)
    have := hs.x_taken
    rw [hxf, hfree] at this
    cases this
  | fuel + 1, s, hole, x, filled, hs, hstart, hf, hfree, hfuel, hsh, hsx, hunfilled, hfilled => by
    have hpos : 0 < s.numBuckets := by have := hs.hole_lt; omega
    have hhome : ∀ e, idealIndex hashFn s e < s.numBuckets := fun e => indexForHash_lt hpos _
    set y := (x + 1) % s.numBuckets with hy
    have hyl : y < s.numBuckets := Nat.mod_lt _ hpos
    have hsy : fwd s.numBuckets start y = fwd s.numBuckets start x + 1 :=
      fwd_succ_of_lt hstart hs.x_lt hf hsx
    have hfx : f ≠ x := by
      rintro rfl
      rw [hs.x_taken] at hfree
      cases hfree
    have hyh : y ≠ hole := by
      rintro hyh
      rw [← hyh] at hsh
      omega
    have hhole_start : emptyFn.isEmpty (s.data hole) = false := hs.hole_taken
    unfold eraseLoop
    dsimp only
    rw [nextIndex_eq_mod hs.x_lt, ← hy]
    by_cases hyfree : emptyFn.isEmpty (s.data y) = true
    · -- the next slot is free: the hole is emptied and the walk ends
      rw [if_pos hyfree]
      have hfh : f ≠ hole := by
        rintro rfl
        rw [hs.hole_taken] at hfree
        cases hfree
      refine ⟨Function.update s.data hole emptyFn.makeEmpty, filled, rfl,
        hs.probeInv_clear hhome hyfree hempty, contents_clear hs.hole_lt hempty, ?_, fun hb => ?_⟩
      · rwa [Function.update_of_ne hfh]
      · obtain ⟨hne, ht⟩ := hfilled hb
        rwa [Function.update_of_ne (Ne.symm hne)]
    rw [if_neg hyfree]
    have hytaken : emptyFn.isEmpty (s.data y) = false := by simpa using hyfree
    have hyf : y ≠ f := by
      rintro rfl
      rw [hytaken] at hfree
      cases hfree
    have hsyf : fwd s.numBuckets start y < fwd s.numBuckets start f := by
      rcases Nat.lt_or_ge (fwd s.numBuckets start y) (fwd s.numBuckets start f) with h | h
      · exact h
      · exact absurd (fwd_inj hstart hyl hf (by omega)) hyf
    have hfuel' : fwd s.numBuckets y f ≤ fuel := by
      have hstep : fwd s.numBuckets y f + 1 = fwd s.numBuckets x f := fwd_succ_left hs.x_lt hf hfx
      omega
    have hunwrap := unwrapped_iff (i := s.indexForHash (hashFn (s.data y))) hs.hole_lt hyl
    by_cases hout : ¬(0 < fwd s.numBuckets hole (idealIndex hashFn s (s.data y)) ∧
        fwd s.numBuckets hole (idealIndex hashFn s (s.data y)) ≤ fwd s.numBuckets hole y)
    · -- the element's ideal index is not between the hole and it: it moves into the hole
      rw [if_pos (hunwrap.2 hout)]
      have hs' := hs.move hhome hytaken hout
      have hstart' : emptyFn.isEmpty (Function.update s.data hole (s.data y) start) = false := by
        by_cases hhs : hole = start
        · rw [← hhs, Function.update_self]
          exact hytaken
        · rw [Function.update_of_ne (Ne.symm hhs)]
          cases hfl : filled
          · exact absurd (hunfilled hfl) hhs
          · exact (hfilled hfl).2
      have hystart : y ≠ start := by
        rintro rfl
        simp at hsy
      have hfree' : emptyFn.isEmpty (Function.update s.data hole (s.data y) f) = true := by
        have hfh : f ≠ hole := by
          rintro rfl
          rw [hs.hole_taken] at hfree
          cases hfree
        rwa [Function.update_of_ne hfh]
      obtain ⟨d, b, heq, hprobe, hcont, hfd, hb⟩ :=
        eraseLoop_spec hempty (s := { s with data := Function.update s.data hole (s.data y) })
          hs' hstart hf hfree' hfuel' le_rfl hsyf (fun h : true = false => by cases h)
          (fun _ => ⟨hystart, hstart'⟩)
      refine ⟨d, b, heq, hprobe, ?_, hfd, hb⟩
      rw [hcont]
      exact contentsExcept_move hs.hole_lt hyl hyh hytaken
    · -- the element's ideal index is between the hole and it: the walk passes it
      rw [if_neg (fun h => hout (hunwrap.1 h))]
      rw [not_not] at hout
      exact eraseLoop_spec hempty (hs.skip hytaken hout) hstart hf hfree hfuel'
        (by omega) hsyf hunfilled hfilled

/-- On a probe-closed table with a free slot, `erase` of an element leaves a probe-closed table
that holds one element less, with the free slot still free, and returns `end()` or an iterator to
an element. -/
theorem erase_keeps_probe_invariant (hempty : emptyFn.isEmpty emptyFn.makeEmpty = true)
    {s : HashSet T} {index f : Nat} (hp : Probed emptyFn hashFn s) (hi : index < s.numBuckets)
    (ht : emptyFn.isEmpty (s.data index) = false) (hf : f < s.numBuckets)
    (hfree : emptyFn.isEmpty (s.data f) = true) :
    ∃ t it, erase emptyFn hashFn s index = some (t, it) ∧ Probed emptyFn hashFn t ∧
      elements emptyFn t + {s.data index} = elements emptyFn s ∧
      t.numElements = s.numElements - 1 ∧ t.numBuckets = s.numBuckets ∧
      emptyFn.isEmpty (t.data f) = true ∧ IsIterator emptyFn t it := by
  have hfi : f ≠ index := by
    rintro rfl
    rw [ht] at hfree
    cases hfree
  have hif : fwd s.numBuckets index index < fwd s.numBuckets index f := by
    rw [fwd_self]
    exact Nat.pos_of_ne_zero fun h => hfi ((fwd_eq_zero_iff hi).1 h).symm
  obtain ⟨d, b, heq, hprobe, hcont, hfd, hb⟩ :=
    eraseLoop_spec hempty (ShiftInv.start hp hi ht) hi hf hfree (fwd_lt hi hf).le le_rfl hif
      (fun _ : false = false => rfl) (fun h : false = true => by cases h)
  unfold erase
  rw [heq]
  refine ⟨_, _, rfl, hprobe, ?_, rfl, rfl, hfd, ?_⟩
  · show contents s.numBuckets emptyFn.isEmpty d + {s.data index} = _
    rw [hcont, elements, contents_eq_contentsExcept_add hi ht]
  · cases b with
    | true => exact .inr ⟨hi, hb rfl⟩
    | false => exact nextNonEmptySlotLoop_isIterator hi (by omega)

/-- Load factors `1/4` and `3/4`: four slots take three elements. -/
def quarterLoads : LoadFactors where
  min := 1 / 4
  max := 3 / 4
  min_pos := by norm_num
  min_lt_max := by norm_num
  max_lt_one := by norm_num

/-- The keys `5` and `9` of `size_t` in four slots, both with ideal index `1`: `9` sits behind
`5`. -/
def collidingKeys : HashSet Nat where
  numElements := 2
  numBuckets := 4
  elementsUntilExpand := 3
  data := fun i => if i = 1 then 5 else if i = 2 then 9 else 0
  loadFactors := quarterLoads

/-- Erasing `5` moves `9` back into its ideal slot. -/
theorem erase_colliding_key :
    Probed keyEmptyFn id collidingKeys ∧ 1 < collidingKeys.numBuckets ∧
      keyEmptyFn.isEmpty (collidingKeys.data 1) = false ∧ 3 < collidingKeys.numBuckets ∧
      keyEmptyFn.isEmpty (collidingKeys.data 3) = true ∧
      ∃ t it, erase keyEmptyFn id collidingKeys 1 = some (t, it) ∧ Probed keyEmptyFn id t ∧
        elements keyEmptyFn t + {collidingKeys.data 1} = elements keyEmptyFn collidingKeys ∧
        t.numElements = collidingKeys.numElements - 1 ∧
        t.numBuckets = collidingKeys.numBuckets ∧ keyEmptyFn.isEmpty (t.data 3) = true ∧
        IsIterator keyEmptyFn t it := by
  have hp : Probed keyEmptyFn id collidingKeys := by
    unfold Probed ProbeInv
    decide
  exact ⟨hp, by decide, by decide, by decide, by decide,
    erase_keeps_probe_invariant rfl hp (by decide) (by decide) (by decide) (by decide)⟩

/-! ## `insert` and `Resize` -/

theorem mem_elements {s : HashSet T} {e : T} :
    e ∈ elements emptyFn s ↔
      ∃ k < s.numBuckets, emptyFn.isEmpty (s.data k) = false ∧ s.data k = e := by
  unfold elements contents
  rw [Multiset.mem_sum]
  constructor
  · rintro ⟨k, hk, hmem⟩
    split_ifs at hmem with hkt
    · exact ⟨k, Finset.mem_range.1 hk, hkt, (Multiset.mem_singleton.1 hmem).symm⟩
    · exact absurd hmem (Multiset.notMem_zero e)
  · rintro ⟨k, hk, hkt, rfl⟩
    exact ⟨k, Finset.mem_range.2 hk, by rw [if_pos hkt]; exact Multiset.mem_singleton_self _⟩

/-- One reinsertion of `Resize` puts the old element, if any, into the first free slot from its
ideal index: the table stays probe-closed and holds that element more. -/
theorem reinsert_spec {old t t' : HashSet T} {i : Nat} (hp : Probed emptyFn hashFn t)
    (h : reinsert emptyFn hashFn old t i = some t') :
    Probed emptyFn hashFn t' ∧ ∃ d, t' = { t with data := d } ∧
      contents t.numBuckets emptyFn.isEmpty d = elements emptyFn t +
        if emptyFn.isEmpty (old.data i) = false then {old.data i} else 0 := by
  unfold reinsert at h
  dsimp only at h
  split at h
  · rename_i hempty
    cases h
    exact ⟨hp, t.data, rfl, by simp [elements, hempty]⟩
  · rename_i htaken
    simp only [Bool.not_eq_true] at htaken
    split at h
    · cases h
    · rename_i slot hslot
      cases h
      -- the search ran, so the table has buckets and the slot is the first free one
      have hpos : 0 < t.numBuckets := by
        rcases Nat.eq_zero_or_pos t.numBuckets with h0 | h0
        · simp [firstAvailableSlot, h0, firstAvailableSlotLoop] at hslot
        · exact h0
      have ha := indexForHash_lt hpos (hashFn (old.data i))
      obtain ⟨hsl, hsfree, hbefore⟩ := firstAvailableSlotLoop_spec ha hslot
      refine ⟨probeInv_update hp hsfree htaken fun j hj hjs hne => hbefore j hj
        (lt_of_le_of_ne hjs fun h => hne (fwd_inj ha hj hsl h)), _, rfl, ?_⟩
      rw [contents_update_of_free hsl hsfree htaken, if_pos htaken]
      rfl

/-- The reinsertion loop of `Resize` over the first `m` old slots. -/
theorem reinsertLoop_spec (hempty : emptyFn.isEmpty emptyFn.makeEmpty = true)
    (old fresh : HashSet T) (hfresh : ∀ i, fresh.data i = emptyFn.makeEmpty) :
    ∀ (m : Nat) {t : HashSet T},
      (List.range m).foldlM (reinsert emptyFn hashFn old) fresh = some t →
      Probed emptyFn hashFn t ∧ (∃ d, t = { fresh with data := d }) ∧
        elements emptyFn t = contents m emptyFn.isEmpty old.data
  | 0, t, h => by
    cases h
    refine ⟨fun k _ hk => by simp [hfresh, hempty] at hk, ⟨fresh.data, rfl⟩, ?_⟩
    simp [elements, contents, hfresh, hempty]
  | m + 1, t, h => by
    rw [List.range_succ, List.foldlM_append] at h
    obtain ⟨u, hu, h'⟩ := Option.bind_eq_some_iff.1 h
    obtain ⟨hpu, ⟨du, rfl⟩, hcu⟩ := reinsertLoop_spec hempty old fresh hfresh m hu
    simp only [List.foldlM_cons, List.foldlM_nil, bind_pure] at h'
    obtain ⟨hpt, d, rfl, hct⟩ := reinsert_spec hpu h'
    refine ⟨hpt, ⟨d, rfl⟩, ?_⟩
    rw [elements, hct, hcu, contents, contents, Finset.sum_range_succ]

/-- `Resize` keeps the elements and leaves a probe-closed table. -/
theorem resize_spec (hempty : emptyFn.isEmpty emptyFn.makeEmpty = true) {s t : HashSet T}
    {newSize : Nat} (h : resize emptyFn hashFn s newSize = some t) :
    Probed emptyFn hashFn t ∧ elements emptyFn t = elements emptyFn s ∧
      t.numElements = s.numElements := by
  unfold resize at h
  dsimp only at h
  split at h
  · cases h
  · rename_i u hu
    cases h
    obtain ⟨hp, ⟨d, rfl⟩, hc⟩ := reinsertLoop_spec hempty s _ (fun _ => rfl) _ hu
    exact ⟨hp, hc, rfl⟩

/-- On a probe-closed table, `insert` (with the `Expand` it may do first) leaves a probe-closed
table.  It either finds an element equal to the key and changes nothing but the layout, or, when
no element is equal to it, puts the key into a free slot and holds one element more. -/
theorem insert_keeps_probe_invariant (hempty : emptyFn.isEmpty emptyFn.makeEmpty = true)
    (hpred : ∀ a b, pred a b = true → hashFn a = hashFn b) {s t : HashSet T} {key : T} {j : Nat}
    {inserted : Bool} (hp : Probed emptyFn hashFn s) (hkey : emptyFn.isEmpty key = false)
    (h : insert emptyFn hashFn pred s key = some (t, j, inserted)) :
    Probed emptyFn hashFn t ∧ j < t.numBuckets ∧
      ((inserted = true ∧ t.data j = key ∧ elements emptyFn t = elements emptyFn s + {key} ∧
          t.numElements = s.numElements + 1 ∧
          ∀ e ∈ elements emptyFn s, pred e key = false) ∨
        (inserted = false ∧ emptyFn.isEmpty (t.data j) = false ∧ pred (t.data j) key = true ∧
          elements emptyFn t = elements emptyFn s ∧ t.numElements = s.numElements)) := by
  unfold insert insertWithHash at h
  dsimp only at h
  cases hu : (if s.numElements ≥ s.elementsUntilExpand then expand emptyFn hashFn s else some s) with
  | none =>
    rw [hu] at h
    cases h
  | some u =>
  rw [hu] at h
  dsimp only at h
  obtain ⟨hpu, hcu, hnu⟩ : Probed emptyFn hashFn u ∧ elements emptyFn u = elements emptyFn s ∧
      u.numElements = s.numElements := by
    split at hu
    · exact resize_spec hempty hu
    · cases hu
      exact ⟨hp, rfl, rfl⟩
  cases hr : findIndexImpl emptyFn pred u key (hashFn key) with
  | none =>
    rw [hr] at h
    cases h
  | some r =>
  rw [hr] at h
  have hpos : 0 < u.numBuckets := by
    rcases Nat.eq_zero_or_pos u.numBuckets with h0 | h0
    · simp [findIndexImpl, h0, findIndexLoop] at hr
    · exact h0
  have ha := indexForHash_lt hpos (hashFn key)
  obtain ⟨hrl, hbefore, htrue, hfalse⟩ := findIndexLoop_spec ha hr
  obtain ⟨b, idx⟩ := r
  cases b with
  | true =>
    -- an equal element is there: the table is `u`, unchanged
    cases h
    exact ⟨hpu, hrl, .inr ⟨rfl, (htrue rfl).1, (htrue rfl).2, hcu, hnu⟩⟩
  | false =>
    -- no element is equal to the key: it goes into the free slot that ends the probe
    have hnone := no_equal_of_findIndexLoop_false hpu hpred hpos hr
    cases h
    refine ⟨probeInv_update hpu (hfalse rfl) hkey fun i hi hij hne => (hbefore i hi
      (lt_of_le_of_ne hij fun h => hne (fwd_inj ha hi hrl h))).1, hrl, .inl ⟨rfl, by simp, ?_,
      by simp [hnu], ?_⟩⟩
    · rw [elements, contents_update_of_free hrl (hfalse rfl) hkey, ← elements, hcu]
    · intro e he
      rw [← hcu, mem_elements] at he
      obtain ⟨k, hk, hkt, rfl⟩ := he
      exact hnone k hk hkt

/-! ## Runs of calls -/

/-- `erase` returned, so its walk met a free slot, which was free before the walk. -/
theorem exists_free_of_eraseLoop :
    ∀ {fuel : Nat} {s : HashSet T} {hole x : Nat} {filled : Bool} {r : HashSet T × Bool},
      0 < s.numBuckets → eraseLoop emptyFn hashFn s fuel hole x filled = some r →
      ∃ f < s.numBuckets, emptyFn.isEmpty (s.data f) = true
  | 0, _, _, _, _, _, _, h => by cases h
  | fuel + 1, s, hole, x, filled, r, hpos, h => by
    unfold eraseLoop at h
    dsimp only at h
    by_cases hy : emptyFn.isEmpty (s.data (s.nextIndex x)) = true
    · exact ⟨s.nextIndex x, by unfold HashSet.nextIndex; split <;> omega, hy⟩
    rw [if_neg hy] at h
    rcases ite_eq_iff.1 h with ⟨-, h⟩ | ⟨-, h⟩
    · -- the walk moved an element into the hole, which stays taken
      obtain ⟨f, hf, hfree⟩ := exists_free_of_eraseLoop
        (s := { s with data := Function.update s.data hole (s.data (s.nextIndex x)) }) hpos h
      dsimp only at hfree
      by_cases hfh : f = hole
      · rw [hfh, Function.update_self] at hfree
        exact absurd hfree hy
      · rw [Function.update_of_ne hfh] at hfree
        exact ⟨f, hf, hfree⟩
    · exact exists_free_of_eraseLoop hpos h

section Run

variable (emptyFn hashFn pred)

/-- The calls a user makes on a `HashSet`: `insert`, `erase(find(key))` when `find` finds the key,
`clear`, `reserve`, `ShrinkToMaximumLoad` and `SetLoadFactor`. -/
inductive Call (T : Type)
  | insert (key : T)
  | erase (key : T)
  | clear
  | reserve (numElements : Nat)
  | shrinkToMaximumLoad
  | setLoadFactor (loadFactors : LoadFactors)

namespace Call

/-- The set after a call; `none` where a loop of the call never ends. -/
def apply (s : HashSet T) : Call T → Option (HashSet T)
  | insert key => (HashSet.insert emptyFn hashFn pred s key).map (·.1)
  | erase key =>
    (find emptyFn hashFn pred s key).bind fun index =>
      if index = s.numBuckets then some s else (HashSet.erase emptyFn hashFn s index).map (·.1)
  | clear => some (HashSet.clear emptyFn s)
  | reserve numElements => HashSet.reserve emptyFn hashFn s numElements
  | shrinkToMaximumLoad => HashSet.shrinkToMaximumLoad emptyFn hashFn s
  | setLoadFactor loadFactors => HashSet.setLoadFactor emptyFn hashFn s loadFactors

/-- The key a call passes, if any. -/
def key? : Call T → Option T
  | insert key | erase key => some key
  | _ => none

/-- What a call does to the set of elements. -/
def applySet [DecidableEq T] (S : Finset T) : Call T → Finset T
  | insert key => Insert.insert key S
  | erase key => S.erase key
  | clear => ∅
  | _ => S

end Call

/-- The set after a list of calls. -/
def runCalls (s : HashSet T) : List (Call T) → Option (HashSet T)
  | [] => some s
  | c :: cs => (c.apply emptyFn hashFn pred s).bind fun t => runCalls t cs

end Run

/-! ## A `HashSet` refines a finite set -/

section Refinement

variable (emptyFn hashFn) in
/-- A `HashSet` stands for the finite set `S`: it is probe-closed, holds each element of `S` once,
and `size()` is their number. -/
structure RunInv (s : HashSet T) (S : Finset T) : Prop where
  probed : Probed emptyFn hashFn s
  elements_eq : elements emptyFn s = S.val
  size_eq : s.numElements = S.card

theorem RunInv.resize (hempty : emptyFn.isEmpty emptyFn.makeEmpty = true) {s t : HashSet T}
    {S : Finset T} {newSize : Nat} (hinv : RunInv emptyFn hashFn s S)
    (h : resize emptyFn hashFn s newSize = some t) : RunInv emptyFn hashFn t S := by
  obtain ⟨hp, hc, hn⟩ := resize_spec hempty h
  exact ⟨hp, hc.trans hinv.elements_eq, hn.trans hinv.size_eq⟩

/-- Both constructors make a table that stands for the empty set. -/
theorem runInv_create (hempty : emptyFn.isEmpty emptyFn.makeEmpty = true)
    (loadFactors : LoadFactors) (bufferSize : Nat) {s : HashSet T}
    (hs : s = create emptyFn loadFactors ∨ s = createWithBuffer emptyFn loadFactors bufferSize) :
    RunInv emptyFn hashFn s ∅ := by
  rcases hs with rfl | rfl
  · refine ⟨fun k hk => absurd hk (Nat.not_lt_zero _), ?_, rfl⟩
    simp [elements, contents, create]
  · refine ⟨fun k _ hk => by simp [createWithBuffer, hempty] at hk, ?_, rfl⟩
    simp [elements, contents, createWithBuffer, hempty]

variable [DecidableEq T]

/-- `std::equal_to<T>`, the default `Pred`. -/
def equalTo (a b : T) : Bool := decide (a = b)

theorem equalTo_hash (a b : T) (h : equalTo a b = true) : hashFn a = hashFn b := by
  rw [equalTo, decide_eq_true_eq] at h
  rw [h]

/-- `find` answers `end()` exactly when the key is not in the set, on a table with a free slot. -/
theorem RunInv.find {s : HashSet T} {S : Finset T} (hinv : RunInv emptyFn hashFn s S) {f : Nat}
    (hf : f < s.numBuckets) (hfree : emptyFn.isEmpty (s.data f) = true) (key : T) :
    ∃ j, find emptyFn hashFn equalTo s key = some j ∧ (j < s.numBuckets ↔ key ∈ S) := by
  obtain ⟨j, hj, hcases⟩ := find_returns_equal_element hinv.probed equalTo_hash hf hfree key
  refine ⟨j, hj, ?_⟩
  rw [← Finset.mem_val, ← hinv.elements_eq, mem_elements]
  rcases hcases with ⟨hjl, hjt, hjk⟩ | ⟨rfl, hnone⟩
  · simp only [equalTo, decide_eq_true_eq] at hjk
    exact ⟨fun _ => ⟨j, hjl, hjt, hjk⟩, fun _ => hjl⟩
  · refine ⟨fun h => absurd h (Nat.lt_irrefl _), ?_⟩
    rintro ⟨k, hk, hkt, rfl⟩
    have := hnone k hk hkt
    simp [equalTo] at this

/-- Each call keeps the table standing for the set that the call makes of it. -/
theorem RunInv.apply (hempty : emptyFn.isEmpty emptyFn.makeEmpty = true) {s t : HashSet T}
    {S : Finset T} {c : Call T} (hinv : RunInv emptyFn hashFn s S)
    (hkey : ∀ k ∈ c.key?, emptyFn.isEmpty k = false)
    (h : c.apply emptyFn hashFn equalTo s = some t) : RunInv emptyFn hashFn t (c.applySet S) := by
  cases c with
  | insert key =>
    obtain ⟨⟨t, j, inserted⟩, hins, rfl⟩ := Option.map_eq_some_iff.1 h
    obtain ⟨hp, hjl, hcases⟩ :=
      insert_keeps_probe_invariant hempty equalTo_hash hinv.probed (hkey key rfl) hins
    rcases hcases with ⟨-, -, hc, hn, hnone⟩ | ⟨-, hjt, hjk, hc, hn⟩
    · -- the key was not there
      have hnot : key ∉ S := by
        rw [← Finset.mem_val, ← hinv.elements_eq]
        intro hmem
        simpa [equalTo] using hnone key hmem
      refine ⟨hp, ?_, ?_⟩
      · rw [hc, hinv.elements_eq, Call.applySet, Finset.insert_val_of_notMem hnot,
          ← Multiset.singleton_add, add_comm]
      · rw [hn, hinv.size_eq, Call.applySet, Finset.card_insert_of_notMem hnot]
    · -- an equal element was there
      simp only [equalTo, decide_eq_true_eq] at hjk
      have hmem : key ∈ S := by
        rw [← Finset.mem_val, ← hinv.elements_eq, ← hc, mem_elements]
        exact ⟨j, hjl, hjt, hjk⟩
      refine ⟨hp, ?_, ?_⟩
      · rw [hc, hinv.elements_eq, Call.applySet, Finset.insert_eq_of_mem hmem]
      · rw [hn, hinv.size_eq, Call.applySet, Finset.insert_eq_of_mem hmem]
  | erase key =>
    obtain ⟨index, hfind, h'⟩ := Option.bind_eq_some_iff.1 h
    unfold HashSet.find findIndex at hfind
    by_cases h0 : s.numBuckets = 0
    · -- no buckets: `find` answers `end()`, and the set is empty
      rw [if_pos h0] at hfind
      cases hfind
      rw [if_pos h0.symm] at h'
      cases h'
      have hS : S = ∅ := by
        have := hinv.elements_eq
        rw [elements, contents, h0, Finset.range_zero, Finset.sum_empty] at this
        exact Finset.val_eq_zero.1 this.symm
      rw [Call.applySet, hS, Finset.erase_empty, ← hS]
      exact hinv
    rw [if_neg h0] at hfind
    obtain ⟨⟨found, j⟩, hr, hidx⟩ := Option.map_eq_some_iff.1 hfind
    have hpos : 0 < s.numBuckets := Nat.pos_of_ne_zero h0
    obtain ⟨hjl, -, htrue, -⟩ := findIndexLoop_spec (indexForHash_lt hpos _) hr
    cases found with
    | false =>
      -- `find` answered `end()`: no element is equal to the key
      simp only [Bool.false_eq_true, if_false] at hidx
      subst hidx
      rw [if_pos rfl] at h'
      cases h'
      have hnone := no_equal_of_findIndexLoop_false hinv.probed equalTo_hash hpos hr
      have hnot : key ∉ S := by
        rw [← Finset.mem_val, ← hinv.elements_eq, mem_elements]
        rintro ⟨k, hk, hkt, rfl⟩
        have := hnone k hk hkt
        simp [equalTo] at this
      rw [Call.applySet, Finset.erase_eq_of_notMem hnot]
      exact hinv
    | true =>
      -- `find` answered the slot of the key, and `erase` of it returned
      simp only [if_true] at hidx
      subst hidx
      rw [if_neg (Nat.ne_of_lt hjl)] at h'
      obtain ⟨⟨t, it⟩, herase, rfl⟩ := Option.map_eq_some_iff.1 h'
      obtain ⟨hjt, hjk⟩ := htrue rfl
      simp only [equalTo, decide_eq_true_eq] at hjk
      obtain ⟨f, hf, hfree⟩ : ∃ f < s.numBuckets, emptyFn.isEmpty (s.data f) = true := by
        unfold HashSet.erase at herase
        split at herase
        · cases herase
        · exact exists_free_of_eraseLoop hpos ‹_›
      obtain ⟨t', it', herase', hp, hc, hn, -⟩ :=
        erase_keeps_probe_invariant hempty hinv.probed hjl hjt hf hfree
      rw [herase'] at herase
      cases herase
      have hmem : key ∈ S.val := by
        rw [← hinv.elements_eq, mem_elements]
        exact ⟨j, hjl, hjt, hjk⟩
      refine ⟨hp, ?_, ?_⟩
      · rw [Call.applySet, Finset.erase_val]
        rw [hjk, hinv.elements_eq, ← Multiset.cons_erase hmem, ← Multiset.singleton_add,
          add_comm] at hc
        exact add_left_cancel hc
      · rw [hn, hinv.size_eq, Call.applySet, Finset.card_erase_of_mem (Finset.mem_def.2 hmem)]
  | clear =>
    cases h
    refine ⟨fun k hk => absurd hk (Nat.not_lt_zero _), ?_, rfl⟩
    simp [elements, contents, HashSet.clear, Call.applySet]
  | reserve numElements =>
    unfold Call.apply HashSet.reserve at h
    dsimp only at h
    split at h
    · exact hinv.resize hempty h
    · cases h
      exact hinv
  | shrinkToMaximumLoad => exact hinv.resize hempty h
  | setLoadFactor loadFactors =>
    unfold Call.apply HashSet.setLoadFactor at h
    dsimp only at h
    split at h
    · refine RunInv.resize hempty ?_ h
      exact ⟨hinv.probed, hinv.elements_eq, hinv.size_eq⟩
    · cases h
      exact ⟨hinv.probed, hinv.elements_eq, hinv.size_eq⟩

/-- Every run of calls keeps the table standing for the set the same calls make. -/
theorem RunInv.runCalls (hempty : emptyFn.isEmpty emptyFn.makeEmpty = true) :
    ∀ {cs : List (Call T)} {s t : HashSet T} {S : Finset T}, RunInv emptyFn hashFn s S →
      (∀ c ∈ cs, ∀ k ∈ c.key?, emptyFn.isEmpty k = false) →
      runCalls emptyFn hashFn equalTo s cs = some t →
      RunInv emptyFn hashFn t (cs.foldl Call.applySet S)
  | [], _, _, _, hinv, _, h => by
    cases h
    exact hinv
  | c :: cs, _, _, _, hinv, hkeys, h => by
    obtain ⟨u, hu, h'⟩ := Option.bind_eq_some_iff.1 h
    rw [List.foldl_cons]
    refine RunInv.runCalls hempty (hinv.apply hempty (hkeys c List.mem_cons_self) hu) ?_ h'
    exact fun c' hc' => hkeys c' (List.mem_cons_of_mem c hc')

/-- A `HashSet` made by either constructor stands, after every run of calls that returns, for
the finite set the same calls make: `Verify()` is zero, the table holds the elements of the set
once each, `size()` is their number, and while a slot is free `find` answers membership. -/
theorem hash_set_runs_refine_finset (hempty : emptyFn.isEmpty emptyFn.makeEmpty = true)
    (loadFactors : LoadFactors) (bufferSize : Nat) {s t : HashSet T} {calls : List (Call T)}
    (hs : s = create emptyFn loadFactors ∨ s = createWithBuffer emptyFn loadFactors bufferSize)
    (hkeys : ∀ c ∈ calls, ∀ k ∈ c.key?, emptyFn.isEmpty k = false)
    (h : runCalls emptyFn hashFn equalTo s calls = some t) :
    verify emptyFn hashFn t = 0 ∧ elements emptyFn t = (calls.foldl Call.applySet ∅).val ∧
      t.numElements = (calls.foldl Call.applySet ∅).card ∧
      ∀ f < t.numBuckets, emptyFn.isEmpty (t.data f) = true → ∀ key, ∃ j,
        find emptyFn hashFn equalTo t key = some j ∧
          (j < t.numBuckets ↔ key ∈ calls.foldl Call.applySet ∅) := by
  have hstart : RunInv emptyFn hashFn s ∅ := runInv_create hempty loadFactors bufferSize hs
  have hinv := hstart.runCalls hempty hkeys h
  exact ⟨(verify_eq_zero_iff hempty t).2 hinv.probed, hinv.elements_eq, hinv.size_eq,
    fun f hf hfree key => hinv.find hf hfree key⟩

theorem floor_quarterLoads_max : ⌊((4 : Nat) : ℚ) * quarterLoads.max⌋₊ = 3 := by
  rw [Nat.floor_eq_iff (by norm_num [quarterLoads])]
  norm_num [quarterLoads]

/-- Four slots from a caller's buffer: insert `5` and `9`, which collide, then erase `5`. -/
theorem hash_set_runs_colliding_keys :
    (∀ c ∈ [Call.insert 5, .insert 9, .erase 5], ∀ k ∈ Call.key? c,
        keyEmptyFn.isEmpty k = false) ∧
      ∃ t, runCalls keyEmptyFn id equalTo (createWithBuffer keyEmptyFn quarterLoads 4)
          [.insert 5, .insert 9, .erase 5] = some t ∧
        verify keyEmptyFn id t = 0 ∧
        elements keyEmptyFn t =
          (([.insert 5, .insert 9, .erase 5] : List (Call Nat)).foldl Call.applySet ∅).val ∧
        t.numElements =
          (([.insert 5, .insert 9, .erase 5] : List (Call Nat)).foldl Call.applySet ∅).card ∧
        ∀ f < t.numBuckets, keyEmptyFn.isEmpty (t.data f) = true → ∀ key, ∃ j,
          find keyEmptyFn id equalTo t key = some j ∧ (j < t.numBuckets ↔
            key ∈ ([.insert 5, .insert 9, .erase 5] : List (Call Nat)).foldl Call.applySet ∅) := by
  have hkeys : ∀ c ∈ [Call.insert 5, .insert 9, .erase 5], ∀ k ∈ Call.key? c,
      keyEmptyFn.isEmpty k = false := by
    simp [Call.key?]
  -- the buffer's `elements_until_expand_` is `⌊4 · 3/4⌋ = 3`, after which the run computes
  have hbuffer : createWithBuffer keyEmptyFn quarterLoads 4 =
      { numElements := 0, numBuckets := 4, elementsUntilExpand := 3, data := fun _ => 0,
        loadFactors := quarterLoads } := by
    rw [createWithBuffer, floor_quarterLoads_max]
    rfl
  obtain ⟨t, ht⟩ : ∃ t, runCalls keyEmptyFn id equalTo
      (createWithBuffer keyEmptyFn quarterLoads 4) [.insert 5, .insert 9, .erase 5] = some t :=
    ⟨_, by rw [hbuffer]; rfl⟩
  exact ⟨hkeys, t, ht, hash_set_runs_refine_finset rfl quarterLoads 4 (.inr rfl) hkeys ht⟩

end Refinement

end HashSet

end Art
