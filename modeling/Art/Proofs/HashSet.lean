import Mathlib
import Art.Base.HashSet

/-!
# `HashSet`: probing ends exactly when a slot is free, and a run that frees none

A probe from any slot visits every slot within `NumBuckets()` steps, so with a free slot in the
table `FindIndexImpl` returns (`findIndexLoop_isSome`); with none, and no slot holding the key,
it never does (`findIndexLoop_eq_none_of_full`).

`Expand` resizes to `size() / min_load_factor_` and then allows `NumBuckets() *
max_load_factor_` elements, both rounded down and the size at least `kMinBuckets`.  When the two
factors are close, the table after `Expand` allows no more elements than it holds, and the insert
that follows takes the last free slot (`hash_set_fills_every_bucket`).
-/

namespace Art

namespace HashSet

variable {T : Type} (emptyFn : EmptyFn T) (hashFn : T → Nat) (pred : T → T → Bool)

theorem nextIndex_lt {s : HashSet T} {index : Nat} (h : index < s.numBuckets) :
    s.nextIndex index < s.numBuckets := by
  unfold nextIndex
  split <;> omega

/-- Stepping with `NextIndex` is adding one modulo the bucket count. -/
theorem nextIndex_eq_mod {s : HashSet T} {index : Nat} (h : index < s.numBuckets) :
    s.nextIndex index = (index + 1) % s.numBuckets := by
  unfold nextIndex
  split
  · rw [show index + 1 = s.numBuckets by omega, Nat.mod_self]
  · rw [Nat.mod_eq_of_lt (by omega)]

/-- A probe with `fuel` steps returns when one of the slots `index, index + 1, …` it visits before
the fuel runs out is free. -/
theorem findIndexLoop_isSome_of_free {s : HashSet T} {element : T} :
    ∀ (fuel index m : Nat), index < s.numBuckets → m < fuel →
      emptyFn.isEmpty (s.data ((index + m) % s.numBuckets)) = true →
      (findIndexLoop emptyFn pred s element fuel index).isSome
  | 0, _, _, _, hm, _ => absurd hm (Nat.not_lt_zero _)
  | fuel + 1, index, m, hi, hm, hfree => by
    unfold findIndexLoop
    dsimp only
    split
    · rfl
    · split
      · rfl
      · rename_i hslot _
        -- the free slot is further on: it is not `index` itself
        cases m with
        | zero => rw [Nat.add_zero, Nat.mod_eq_of_lt hi] at hfree; exact absurd hfree hslot
        | succ m =>
          refine findIndexLoop_isSome_of_free fuel _ m (nextIndex_lt hi) (by omega) ?_
          rwa [nextIndex_eq_mod hi, Nat.mod_add_mod, Nat.add_assoc, Nat.add_comm 1 m]

/-- With a free slot anywhere in the table the probe of `FindIndexImpl` returns. -/
theorem findIndexLoop_isSome {s : HashSet T} {element : T} {index free : Nat}
    (hi : index < s.numBuckets) (hf : free < s.numBuckets)
    (hfree : emptyFn.isEmpty (s.data free) = true) :
    (findIndexLoop emptyFn pred s element s.numBuckets index).isSome := by
  refine findIndexLoop_isSome_of_free emptyFn pred s.numBuckets index
    ((free + s.numBuckets - index) % s.numBuckets) hi (Nat.mod_lt _ (by omega)) ?_
  have hmod : (index + (free + s.numBuckets - index) % s.numBuckets) % s.numBuckets = free := by
    rw [Nat.add_mod_mod, show index + (free + s.numBuckets - index) = free + s.numBuckets by omega,
      Nat.add_mod_right, Nat.mod_eq_of_lt hf]
  rwa [hmod]

/-- With every slot taken by an element other than the key, the probe never returns. -/
theorem findIndexLoop_eq_none_of_full {s : HashSet T} {element : T}
    (hfull : ∀ i < s.numBuckets,
      emptyFn.isEmpty (s.data i) = false ∧ pred (s.data i) element = false) :
    ∀ (fuel index : Nat), index < s.numBuckets →
      findIndexLoop emptyFn pred s element fuel index = none
  | 0, _, _ => rfl
  | fuel + 1, index, hi => by
    obtain ⟨hne, hpred⟩ := hfull index hi
    simp only [findIndexLoop, hne, hpred, Bool.false_eq_true, if_false]
    exact findIndexLoop_eq_none_of_full hfull fuel _ (nextIndex_lt hi)

theorem resize_eq_some {s t : HashSet T} {newSize : Nat}
    (h : (List.range s.numBuckets).foldlM (reinsert emptyFn hashFn s)
      { s with numBuckets := if newSize < kMinBuckets then kMinBuckets else newSize,
               data := fun _ => emptyFn.makeEmpty } = some t) :
    resize emptyFn hashFn s newSize =
      some { t with elementsUntilExpand := ⌊(t.numBuckets : ℚ) * t.loadFactors.max⌋₊ } := by
  unfold resize
  dsimp only
  rw [h]

/-- `InsertWithHash` of an element the probe does not find: after the expansion check the free slot
that ends the probe takes it. -/
theorem insertWithHash_of_free {s t : HashSet T} {element : T} {hash index : Nat}
    (hs : (if s.numElements ≥ s.elementsUntilExpand then expand emptyFn hashFn s else some s) =
      some t)
    (hfind : findIndexImpl emptyFn pred t element hash = some (false, index)) :
    insertWithHash emptyFn hashFn pred s element hash =
      some ({ t with data := Function.update t.data index element,
                     numElements := t.numElements + 1 }, index, true) := by
  unfold insertWithHash
  dsimp only
  rw [hs]
  dsimp only
  rw [hfind]

/-! ## A run that takes the last free slot

`size_t` keys with `0` as the empty value, the identity hash, `min_load_factor_ = 511/512` and
`max_load_factor_ = 1023/1024`, both exact in binary.  From an empty set, the keys `1, …, 999` go
to their own slots of the 1000 that the first `Expand` allocates; the key `1000` finds the size at
`elements_until_expand_ = 999`, and `Expand` resizes to `⌊999 · 512 / 511⌋ = 1000` buckets again. -/

/-- `DefaultEmptyFn<size_t>`: `0` is the empty value. -/
def keyEmptyFn : EmptyFn Nat := ⟨0, fun key => key == 0⟩

@[simp] theorem keyEmptyFn_isEmpty (key : Nat) : keyEmptyFn.isEmpty key = (key == 0) := rfl

@[simp] theorem keyEmptyFn_makeEmpty : keyEmptyFn.makeEmpty = 0 := rfl

def nearlyFullLoad : LoadFactors where
  min := 511 / 512
  max := 1023 / 1024
  min_pos := by norm_num
  min_lt_max := by norm_num
  max_lt_one := by norm_num

/-- The keys `1, …, k` below `j`, each in its own slot of 1000: the table `Resize` has built after
reinserting the old slots below `j`. -/
def keysIn (k j : Nat) : HashSet Nat where
  numElements := k
  numBuckets := 1000
  elementsUntilExpand := 999
  data := fun i => if 1 ≤ i ∧ i ≤ k ∧ i < j then i else 0
  loadFactors := nearlyFullLoad

theorem floor_nearlyFullLoad_max : ⌊((1000 : Nat) : ℚ) * nearlyFullLoad.max⌋₊ = 999 := by
  rw [Nat.floor_eq_iff (by norm_num [nearlyFullLoad])]
  norm_num [nearlyFullLoad]

theorem floor_nearlyFullLoad_min : ⌊((999 : Nat) : ℚ) / nearlyFullLoad.min⌋₊ = 1000 := by
  rw [Nat.floor_eq_iff (by norm_num [nearlyFullLoad])]
  norm_num [nearlyFullLoad]

theorem keysIn_data_of_le {k j i : Nat} (hi : i < j) :
    (keysIn k j).data i = if 1 ≤ i ∧ i ≤ k then i else 0 := by
  simp only [keysIn]
  congr 1
  apply propext
  omega

/-- One step of the reinsertion loop of `Resize`: the key in slot `j` goes back to slot `j`. -/
theorem reinsert_keysIn {k j : Nat} (hj : j < 1000) :
    reinsert keyEmptyFn id (keysIn k 1000) (keysIn k j) j = some (keysIn k (j + 1)) := by
  unfold reinsert
  rw [keysIn_data_of_le hj]
  by_cases hkey : 1 ≤ j ∧ j ≤ k
  · -- the key `j` hashes to slot `j`, which is still free
    have hfree : firstAvailableSlot keyEmptyFn (keysIn k j) ((keysIn k j).indexForHash (id j)) =
        some j := by
      simp [firstAvailableSlot, firstAvailableSlotLoop, indexForHash, keysIn, Nat.mod_eq_of_lt hj]
    simp only [hkey, and_self, if_true, keyEmptyFn_isEmpty, beq_iff_eq, show j ≠ 0 by omega,
      if_false]
    rw [hfree]
    simp only [keysIn, Option.some.injEq, HashSet.mk.injEq, true_and, and_true]
    funext i
    by_cases hij : i = j
    · subst hij
      simp [hkey]
    · rw [Function.update_of_ne hij]
      congr 1
      apply propext
      omega
  · -- slot `j` holds no key: nothing to reinsert
    simp only [hkey, if_false, keyEmptyFn_isEmpty, beq_self_eq_true, if_true, keysIn,
      Option.some.injEq, HashSet.mk.injEq, true_and, and_true]
    funext i
    congr 1
    apply propext
    omega

theorem reinsert_keysIn_range {k : Nat} (j : Nat) (hj : j ≤ 1000) :
    (List.range j).foldlM (reinsert keyEmptyFn id (keysIn k 1000)) (keysIn k 0) =
      some (keysIn k j) := by
  induction j with
  | zero => rfl
  | succ j ih =>
    rw [List.range_succ, List.foldlM_append, ih (by omega), Option.bind_eq_bind, Option.bind_some,
      List.foldlM_cons, reinsert_keysIn (by omega)]
    rfl

/-- `Expand` at `999` elements allocates 1000 buckets again and allows 999 elements. -/
theorem expand_keysIn : expand keyEmptyFn id (keysIn 999 1000) = some (keysIn 999 1000) := by
  have hfresh : ({ keysIn 999 1000 with
      numBuckets := if 1000 < kMinBuckets then kMinBuckets else 1000,
      data := fun _ => keyEmptyFn.makeEmpty } : HashSet Nat) = keysIn 999 0 := by
    simp only [keysIn, keyEmptyFn_makeEmpty, HashSet.mk.injEq, true_and, and_true]
    refine ⟨if_neg (by decide), ?_⟩
    funext i
    rw [if_neg (by omega)]
  have hfold : (List.range (keysIn 999 1000).numBuckets).foldlM
      (reinsert keyEmptyFn id (keysIn 999 1000))
      { keysIn 999 1000 with
        numBuckets := if 1000 < kMinBuckets then kMinBuckets else 1000,
        data := fun _ => keyEmptyFn.makeEmpty } = some (keysIn 999 1000) := by
    rw [hfresh]
    exact reinsert_keysIn_range 1000 le_rfl
  show resize keyEmptyFn id (keysIn 999 1000) ⌊((999 : Nat) : ℚ) / nearlyFullLoad.min⌋₊ = _
  rw [floor_nearlyFullLoad_min, resize_eq_some keyEmptyFn id hfold]
  show some { keysIn 999 1000 with
    elementsUntilExpand := ⌊((1000 : Nat) : ℚ) * nearlyFullLoad.max⌋₊ } = _
  rw [floor_nearlyFullLoad_max]
  rfl

/-- The first insert finds no storage and expands to the minimum of 1000 buckets. -/
theorem expand_create :
    expand keyEmptyFn id (create keyEmptyFn nearlyFullLoad) = some (keysIn 0 1000) := by
  have hfold : (List.range (create keyEmptyFn nearlyFullLoad).numBuckets).foldlM
      (reinsert keyEmptyFn id (create keyEmptyFn nearlyFullLoad))
      { create keyEmptyFn nearlyFullLoad with
        numBuckets := if 0 < kMinBuckets then kMinBuckets else 0,
        data := fun _ => keyEmptyFn.makeEmpty } =
      some { numElements := 0, numBuckets := 1000, elementsUntilExpand := 0,
             data := fun _ => 0, loadFactors := nearlyFullLoad } := rfl
  show resize keyEmptyFn id (create keyEmptyFn nearlyFullLoad)
    ⌊((0 : Nat) : ℚ) / nearlyFullLoad.min⌋₊ = _
  rw [Nat.cast_zero, zero_div, Nat.floor_zero, resize_eq_some keyEmptyFn id hfold]
  show some ({ numElements := 0, numBuckets := 1000,
                elementsUntilExpand := ⌊((1000 : Nat) : ℚ) * nearlyFullLoad.max⌋₊,
                data := fun _ => 0, loadFactors := nearlyFullLoad } : HashSet Nat) = _
  rw [floor_nearlyFullLoad_max]
  simp only [keysIn, Option.some.injEq, HashSet.mk.injEq, true_and, and_true]
  funext i
  rw [if_neg (by omega)]

/-- A key whose ideal slot `j` is free goes there. -/
theorem findIndexImpl_keysIn_free {k j key : Nat} (hj : j < 1000) (hfree : ¬(1 ≤ j ∧ j ≤ k))
    (hkey : key % 1000 = j) :
    findIndexImpl keyEmptyFn (· == ·) (keysIn k 1000) key key = some (false, j) := by
  have hslot : (keysIn k 1000).data j = 0 := by
    rw [keysIn_data_of_le (by omega), if_neg hfree]
  simp [findIndexImpl, findIndexLoop, indexForHash, show (keysIn k 1000).numBuckets = 1000 from rfl,
    hkey, hslot]

/-- The slot of the key just inserted holds it; the others are unchanged. -/
theorem update_keysIn_data {k : Nat} (hk : k < 999) :
    Function.update (keysIn k 1000).data (k + 1) (k + 1) = (keysIn (k + 1) 1000).data := by
  funext i
  by_cases hi : i = k + 1
  · subst hi
    rw [Function.update_self]
    simp only [keysIn]
    rw [if_pos (by omega)]
  · rw [Function.update_of_ne hi]
    simp only [keysIn]
    congr 1
    apply propext
    omega

theorem insert_keysIn {k : Nat} (hk : k < 999) :
    insert keyEmptyFn id (· == ·) (keysIn k 1000) (k + 1) =
      some (keysIn (k + 1) 1000, k + 1, true) := by
  have hs : (if (keysIn k 1000).numElements ≥ (keysIn k 1000).elementsUntilExpand then
      expand keyEmptyFn id (keysIn k 1000) else some (keysIn k 1000)) = some (keysIn k 1000) :=
    if_neg (show ¬(k ≥ 999) by omega)
  rw [insert, id_eq, insertWithHash_of_free keyEmptyFn id (· == ·) hs
    (findIndexImpl_keysIn_free (show k + 1 < 1000 by omega)
      (show ¬(1 ≤ k + 1 ∧ k + 1 ≤ k) by omega) (Nat.mod_eq_of_lt (show k + 1 < 1000 by omega))),
    update_keysIn_data hk]
  rfl

/-- The table after the key `1000` went to slot `0`, the last free one. -/
def keysFull : HashSet Nat :=
  { keysIn 999 1000 with data := Function.update (keysIn 999 1000).data 0 1000,
                         numElements := 1000 }

theorem insert_keysIn_last :
    insert keyEmptyFn id (· == ·) (keysIn 999 1000) 1000 = some (keysFull, 0, true) := by
  have hs : (if (keysIn 999 1000).numElements ≥ (keysIn 999 1000).elementsUntilExpand then
      expand keyEmptyFn id (keysIn 999 1000) else some (keysIn 999 1000)) =
      some (keysIn 999 1000) := by
    rw [if_pos (show (keysIn 999 1000).numElements ≥ (keysIn 999 1000).elementsUntilExpand from
      le_refl 999)]
    exact expand_keysIn
  rw [insert, id_eq, insertWithHash_of_free keyEmptyFn id (· == ·) hs
    (findIndexImpl_keysIn_free (show 0 < 1000 by omega) (show ¬(1 ≤ 0 ∧ 0 ≤ 999) by omega)
      (show 1000 % 1000 = 0 from rfl))]
  rfl

theorem insertAll_keysIn {m : Nat} (hm : m ≤ 998) :
    insertAll keyEmptyFn id (· == ·) (keysIn 1 1000) (List.range' 2 m) = some (keysIn (1 + m) 1000) := by
  induction m with
  | zero => rfl
  | succ m ih =>
    rw [insertAll, List.range'_concat, List.foldlM_append, ← insertAll, ih (by omega),
      Option.bind_eq_bind, Option.bind_some, List.foldlM_cons, show 2 + 1 * m = 1 + m + 1 by omega,
      insert_keysIn (by omega)]
    rfl

theorem insert_create :
    insert keyEmptyFn id (· == ·) (create keyEmptyFn nearlyFullLoad) 1 =
      some (keysIn 1 1000, 1, true) := by
  have hs : (if (create keyEmptyFn nearlyFullLoad).numElements ≥
      (create keyEmptyFn nearlyFullLoad).elementsUntilExpand then
      expand keyEmptyFn id (create keyEmptyFn nearlyFullLoad)
      else some (create keyEmptyFn nearlyFullLoad)) = some (keysIn 0 1000) := by
    rw [if_pos (show (create keyEmptyFn nearlyFullLoad).numElements ≥
      (create keyEmptyFn nearlyFullLoad).elementsUntilExpand from le_refl 0)]
    exact expand_create
  rw [insert, id_eq, insertWithHash_of_free keyEmptyFn id (· == ·) hs
    (findIndexImpl_keysIn_free (show 1 < 1000 by omega) (show ¬(1 ≤ 1 ∧ 1 ≤ 0) by omega)
      (show 1 % 1000 = 1 from rfl)), update_keysIn_data (show 0 < 999 by omega)]
  rfl

/-- The run: the key `1` after the first `Expand`, then `2, …, 999`, then `1000` after the
second. -/
theorem insertAll_create :
    insertAll keyEmptyFn id (· == ·) (create keyEmptyFn nearlyFullLoad) (List.range' 1 1000) =
      some keysFull := by
  have hkeys : List.range' 1 1000 = (1 :: List.range' 2 998) ++ [1000] := by
    rw [List.range'_succ, List.range'_concat]
    rfl
  have hmid := insertAll_keysIn (show 998 ≤ 998 from le_rfl)
  unfold insertAll at hmid ⊢
  rw [hkeys, List.foldlM_append, List.foldlM_cons, insert_create, Option.map_some,
    Option.bind_eq_bind, Option.bind_some, hmid, Option.bind_some, List.foldlM_cons,
    insert_keysIn_last]
  rfl

/-- With `min_load_factor_ = 511/512` and `max_load_factor_ = 1023/1024`, inserting the keys
`1, …, 1000` into an empty set leaves no free slot, and the probe for any other key, `1001` here,
never ends. -/
theorem hash_set_fills_every_bucket :
    ∃ s, insertAll keyEmptyFn id (· == ·) (create keyEmptyFn nearlyFullLoad)
        (List.range' 1 1000) = some s ∧
      s.numElements = s.numBuckets ∧
      (∀ i < s.numBuckets, keyEmptyFn.isEmpty (s.data i) = false) ∧
      find keyEmptyFn id (· == ·) s 1001 = none ∧
      ∀ fuel, findIndexLoop keyEmptyFn (· == ·) s 1001 fuel (s.indexForHash 1001) = none := by
  have hslots : ∀ i < keysFull.numBuckets,
      keyEmptyFn.isEmpty (keysFull.data i) = false ∧ (keysFull.data i == 1001) = false := by
    intro i hi
    have hi' : i < 1000 := hi
    by_cases h0 : i = 0
    · subst h0
      simp [keysFull]
    · simp only [keysFull, Function.update_of_ne h0, keysIn_data_of_le hi',
        if_pos (show 1 ≤ i ∧ i ≤ 999 by omega), keyEmptyFn_isEmpty]
      simp only [beq_eq_false_iff_ne, ne_eq]
      omega
  have hnone := findIndexLoop_eq_none_of_full keyEmptyFn (· == ·) hslots
  have hstart : keysFull.indexForHash 1001 = 1 := rfl
  refine ⟨keysFull, insertAll_create, rfl, fun i hi => (hslots i hi).1, ?_,
    fun fuel => hnone fuel _ (by rw [hstart]; decide)⟩
  unfold find findIndex findIndexImpl
  rw [if_neg (show keysFull.numBuckets ≠ 0 by decide), id, hstart, hnone _ 1 (by decide)]
  rfl

end HashSet

end Art
