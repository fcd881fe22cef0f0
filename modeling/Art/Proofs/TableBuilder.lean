import Art.Proofs.BitTable

/-!
# `Dedup` of the bit table builders

`BitTableBuilderBase::Dedup` looks a run up under its FNV hash and then compares contents, so the
index it returns starts a run of the rows equal to the values byte for byte (`dedup_spec`), and a
run an earlier `Dedup` entered is found again with the builder left as it is (`dedup_of_recorded`),
whatever the hashes collide with.  Over any run of `Add` and `Dedup` calls the rows only grow
(`run_spec`).

`BitmapTableBuilder::Dedup` stores the bitmap's bytes.  When the last bit is set and the byte is
padded with zeros, the stored row is zero above the bitmap's bits and the table is at least as wide
as the bitmap, so after `Encode` and `Decode` each returned index reads back the bitmap and then
zeros (`dedupAll_spec` with `bitmap_table_round_trip`), as long as the width fits the `uint16_t`
column offsets and the table's bits the `uint32_t` cell offsets.
-/

namespace Art

open BitList

namespace BitTableBuilder

/-- The rows from `index` are `values`, byte for byte. -/
def RunAt (rows : List (List Nat)) (index : Nat) (values : List (List Nat)) : Prop :=
  index + values.length ≤ rows.length ∧
    ((rows.drop index).take values.length).map entryBytes = values.map entryBytes

/-- `values` is a run `Dedup` entered: an entry of `dedup_` under its hash whose rows are it. -/
def Recorded (b : BitTableBuilder) (values : List (List Nat)) : Prop :=
  ∃ index, (fnvHash (values.flatMap entryBytes), index) ∈ b.dedupMap ∧ RunAt b.rows index values

/-- Every entry of `dedup_` is an index of the rows. -/
def Inv (b : BitTableBuilder) : Prop := ∀ e ∈ b.dedupMap, e.2 ≤ b.size

theorem runAt_of_isPrefix {rows rows' : List (List Nat)} (h : rows <+: rows') {index : Nat}
    {values : List (List Nat)} (hrun : RunAt rows index values) : RunAt rows' index values := by
  obtain ⟨rest, rfl⟩ := h
  obtain ⟨hle, hbytes⟩ := hrun
  refine ⟨by simp only [List.length_append]; omega, ?_⟩
  rw [List.drop_append_of_le_length (by omega), List.take_append_of_le_length (by simp; omega)]
  exact hbytes

theorem runAt_append (rows values : List (List Nat)) : RunAt (rows ++ values) rows.length values := by
  refine ⟨by simp, ?_⟩
  rw [List.drop_left, List.take_length]

theorem runAt_congr {rows : List (List Nat)} {index : Nat} {values values' : List (List Nat)}
    (h : values.map entryBytes = values'.map entryBytes) :
    RunAt rows index values ↔ RunAt rows index values' := by
  have hlen : values.length = values'.length := by
    simpa using congrArg List.length h
  unfold RunAt
  rw [hlen, h]

theorem flatMap_entryBytes_congr {values values' : List (List Nat)}
    (h : values.map entryBytes = values'.map entryBytes) :
    values.flatMap entryBytes = values'.flatMap entryBytes := by
  rw [List.flatMap_def, List.flatMap_def, h]

theorem recorded_congr {b : BitTableBuilder} {values values' : List (List Nat)}
    (h : values.map entryBytes = values'.map entryBytes) : Recorded b values ↔ Recorded b values' := by
  unfold Recorded
  rw [flatMap_entryBytes_congr h]
  simp only [runAt_congr h]

theorem runAt_of_check {b : BitTableBuilder} (hinv : Inv b) {values : List (List Nat)}
    {e : Nat × Nat} (he : e ∈ b.dedupMap)
    (hcheck : (decide (values.length ≤ b.size - e.2) &&
      ((b.rows.drop e.2).take values.length).map entryBytes == values.map entryBytes) = true) :
    RunAt b.rows e.2 values := by
  simp only [Bool.and_eq_true, decide_eq_true_eq, beq_iff_eq] at hcheck
  have hle := hinv e he
  exact ⟨by unfold size at hle hcheck; omega, hcheck.2⟩

/-- `Dedup` returns a run of the values, keeps the rows and the entries it had, and leaves the
values recorded. -/
theorem dedup_spec {b : BitTableBuilder} (hinv : Inv b) (values : List (List Nat)) :
    let r := b.dedup values
    RunAt r.2.rows r.1 values ∧ b.rows <+: r.2.rows ∧ b.dedupMap ⊆ r.2.dedupMap ∧ Inv r.2 ∧
      Recorded r.2 values := by
  unfold dedup
  dsimp only
  split
  · -- a candidate of the hash holds the values
    rename_i e he
    have hmem := List.mem_of_find?_eq_some he
    rw [List.mem_filter, beq_iff_eq] at hmem
    have hcheck := List.find?_some he
    have hrun := runAt_of_check hinv hmem.1 hcheck
    refine ⟨hrun, List.prefix_refl _, List.Subset.refl _, hinv, e.2, ?_, hrun⟩
    rw [← hmem.2]
    exact hmem.1
  · -- the values are appended and entered under their hash
    refine ⟨runAt_append _ _, List.prefix_append _ _, List.subset_append_left _ _, ?_,
      b.size, List.mem_append_right _ (List.mem_singleton_self _), runAt_append _ _⟩
    intro e he
    simp only [size, List.length_append]
    rcases List.mem_append.mp he with he | he
    · have := hinv e he
      unfold size at this
      omega
    · rw [List.mem_singleton] at he
      subst he
      exact Nat.le_add_right _ _

/-- A run `Dedup` recorded is found again: the rows are left as they are, and the index returned
is of a run already there. -/
theorem dedup_of_recorded {b : BitTableBuilder} {values : List (List Nat)}
    (h : Recorded b values) : (b.dedup values).2 = b := by
  obtain ⟨index, hmem, hrun⟩ := h
  unfold dedup
  dsimp only
  split
  · rfl
  · rename_i hnone
    have := List.find?_eq_none.mp hnone (fnvHash (values.flatMap entryBytes), index)
      (List.mem_filter.mpr ⟨hmem, beq_self_eq_true _⟩)
    simp only [Bool.and_eq_true, decide_eq_true_eq, beq_iff_eq, not_and] at this
    have hle : values.length ≤ b.size - index := by
      have := hrun.1
      unfold size
      omega
    exact absurd hrun.2 (this hle)

theorem recorded_of_isPrefix {b b' : BitTableBuilder} (hrows : b.rows <+: b'.rows)
    (hmap : b.dedupMap ⊆ b'.dedupMap) {values : List (List Nat)} (h : Recorded b values) :
    Recorded b' values := by
  obtain ⟨index, hmem, hrun⟩ := h
  exact ⟨index, hmap hmem, runAt_of_isPrefix hrows hrun⟩

/-! ### Sequences of calls -/

/-- A call of the builder: `Add(value)` or `Dedup(values, count)`. -/
inductive Call
  | add (value : List Nat)
  | dedup (values : List (List Nat))

def call (b : BitTableBuilder) : Call → BitTableBuilder
  | .add value => b.add value
  | .dedup values => (b.dedup values).2

def run (b : BitTableBuilder) (calls : List Call) : BitTableBuilder := calls.foldl call b

theorem call_spec {b : BitTableBuilder} (hinv : Inv b) (c : Call) :
    Inv (b.call c) ∧ b.rows <+: (b.call c).rows ∧ b.dedupMap ⊆ (b.call c).dedupMap := by
  cases c with
  | add value =>
    refine ⟨fun e he => ?_, List.prefix_append _ _, List.Subset.refl _⟩
    have := hinv e he
    simp only [call, add, size, List.length_append] at this ⊢
    omega
  | dedup values =>
    obtain ⟨-, hrows, hmap, hinv', -⟩ := dedup_spec hinv values
    exact ⟨hinv', hrows, hmap⟩

theorem run_spec : ∀ (calls : List Call) {b : BitTableBuilder}, Inv b →
    Inv (b.run calls) ∧ b.rows <+: (b.run calls).rows ∧ b.dedupMap ⊆ (b.run calls).dedupMap
  | [], _, hinv => ⟨hinv, List.prefix_refl _, List.Subset.refl _⟩
  | c :: calls, b, hinv => by
    obtain ⟨hinv₁, hrows₁, hmap₁⟩ := call_spec hinv c
    obtain ⟨hinv₂, hrows₂, hmap₂⟩ := run_spec calls hinv₁
    exact ⟨hinv₂, hrows₁.trans hrows₂, List.Subset.trans hmap₁ hmap₂⟩

theorem recorded_run : ∀ (calls : List Call) {b : BitTableBuilder}, Inv b →
    ∀ values, Call.dedup values ∈ calls → Recorded (b.run calls) values
  | [], _, _, _, h => absurd h List.not_mem_nil
  | c :: calls, b, hinv, values, h => by
    rcases List.mem_cons.mp h with rfl | h
    · obtain ⟨-, -, -, hinv₁, hrec⟩ := dedup_spec hinv values
      obtain ⟨-, hrows, hmap⟩ := run_spec calls hinv₁
      exact recorded_of_isPrefix hrows hmap hrec
    · exact recorded_run calls (call_spec hinv c).1 values h

theorem inv_empty : Inv empty := fun _ he => absurd he List.not_mem_nil

end BitTableBuilder

namespace BitmapTableBuilder

/-- What `Dedup` asks of a bitmap: the last bit set, and zero padding to the end of its byte. -/
def WellFormed (bitmap : List Bool) (numBits : Nat) : Prop :=
  (numBits = 0 ∨ bitmap.getD (numBits - 1) false = true) ∧
    ∀ j, numBits ≤ j → j < bitsToBytesRoundUp numBits * kBitsPerByte → bitmap.getD j false = false

/-- Every entry of `dedup_` is a row, and every row is zero above a bit count the widest bitmap
reaches. -/
structure Inv (b : BitmapTableBuilder) : Prop where
  index_lt : ∀ e ∈ b.dedupMap, e.2 < b.size
  zero_above : ∀ row ∈ b.rows, ∃ n ≤ b.maxNumBits, ∀ j, n ≤ j → row.getD j false = false

theorem le_roundUp (numBits : Nat) : numBits ≤ bitsToBytesRoundUp numBits * kBitsPerByte := by
  unfold bitsToBytesRoundUp kBitsPerByte
  omega

theorem getD_region {bitmap : List Bool} {numBits : Nat} (hw : WellFormed bitmap numBits) (j : Nat) :
    (slice bitmap 0 (bitsToBytesRoundUp numBits * kBitsPerByte)).getD j false =
      (decide (j < numBits) && bitmap.getD j false) := by
  rw [getD_slice, Nat.zero_add]
  by_cases hj : j < numBits
  · simp [hj, Nat.lt_of_lt_of_le hj (le_roundUp numBits)]
  · by_cases hr : j < bitsToBytesRoundUp numBits * kBitsPerByte
    · rw [hw.2 j (Nat.le_of_not_lt hj) hr]
      simp [hj]
    · simp [hj, hr]

theorem inv_empty : Inv empty := ⟨fun _ he => absurd he List.not_mem_nil, fun _ h => absurd h List.not_mem_nil⟩

/-- `Dedup` returns a row holding the bitmap's region, keeps the rows it had, and widens the
table to the bitmap. -/
theorem dedup_spec {b : BitmapTableBuilder} (hinv : Inv b) {bitmap : List Bool} {numBits : Nat}
    (hw : WellFormed bitmap numBits) :
    let r := b.dedup bitmap numBits
    Inv r.2 ∧ b.rows <+: r.2.rows ∧ b.maxNumBits ≤ r.2.maxNumBits ∧
      r.2.maxNumBits ≤ max b.maxNumBits numBits ∧ r.2.size ≤ b.size + 1 ∧ r.1 < r.2.size ∧
      r.2.rows.getD r.1 [] = slice bitmap 0 (bitsToBytesRoundUp numBits * kBitsPerByte) ∧
      numBits ≤ r.2.maxNumBits := by
  unfold dedup
  dsimp only
  split
  · -- a row with the same content: the bitmap's last bit is in it, below its bit count
    rename_i e he
    have hmem := (List.mem_filter.mp (List.mem_of_find?_eq_some he)).1
    have hcheck := List.find?_some he
    have hrow := beq_iff_eq.mp hcheck
    have hlt := hinv.index_lt e hmem
    refine ⟨hinv, List.prefix_refl _, Nat.le_refl _, Nat.le_max_left _ _, Nat.le_succ _, hlt, hrow,
      ?_⟩
    show numBits ≤ b.maxNumBits
    obtain ⟨n, hn, hzero⟩ := hinv.zero_above (b.rows.getD e.2 []) (by
      rw [List.getD_eq_getElem _ _ hlt]
      exact List.getElem_mem _)
    rcases hw.1 with h0 | hlast
    · omega
    · have hbit := getD_region hw (numBits - 1)
      by_contra hgt
      rw [← hrow, hzero (numBits - 1) (by omega), hlast] at hbit
      simp [show numBits - 1 < numBits by omega] at hbit
  · -- a new row
    refine ⟨⟨fun e he => ?_, fun row hrow => ?_⟩, List.prefix_append _ _, Nat.le_max_left _ _,
      Nat.le_refl _, by simp [size], by simp [size], by simp [size], Nat.le_max_right _ _⟩
    · simp only [size, List.length_append, List.length_singleton]
      rcases List.mem_append.mp he with he | he
      · have := hinv.index_lt e he
        unfold size at this
        omega
      · rw [List.mem_singleton] at he
        subst he
        exact Nat.lt_succ_self _
    · rcases List.mem_append.mp hrow with hrow | hrow
      · obtain ⟨n, hn, hzero⟩ := hinv.zero_above row hrow
        exact ⟨n, Nat.le_trans hn (Nat.le_max_left _ _), hzero⟩
      · rw [List.mem_singleton] at hrow
        subst hrow
        refine ⟨numBits, Nat.le_max_right _ _, fun j hj => ?_⟩
        rw [getD_region hw j]
        simp [Nat.not_lt.mpr hj]

/-- `Dedup` of each bitmap in turn, with the index each returns. -/
def dedupAll (b : BitmapTableBuilder) : List (List Bool × Nat) → List Nat × BitmapTableBuilder
  | [] => ([], b)
  | c :: calls =>
    let r := b.dedup c.1 c.2
    let rest := r.2.dedupAll calls
    (r.1 :: rest.1, rest.2)

theorem getD_of_isPrefix {rows rows' : List (List Bool)} (h : rows <+: rows') {i : Nat}
    (hi : i < rows.length) : rows'.getD i [] = rows.getD i [] := by
  obtain ⟨rest, rfl⟩ := h
  rw [List.getD_append _ _ _ _ hi]

/-- A run of `Dedup` calls: each returned index holds its bitmap's region to the end, and the
table is as wide as every bitmap. -/
theorem dedupAll_spec : ∀ (calls : List (List Bool × Nat)) {b : BitmapTableBuilder}, Inv b →
    b.maxNumBits < 2 ^ 16 → (∀ c ∈ calls, WellFormed c.1 c.2 ∧ c.2 < 2 ^ 16) →
    let r := b.dedupAll calls
    Inv r.2 ∧ b.rows <+: r.2.rows ∧ b.maxNumBits ≤ r.2.maxNumBits ∧ r.2.maxNumBits < 2 ^ 16 ∧
      r.2.size ≤ b.size + calls.length ∧
      List.Forall₂ (fun c index => index < r.2.size ∧
        (∀ j, (r.2.rows.getD index []).getD j false = (decide (j < c.2) && c.1.getD j false)) ∧
        c.2 ≤ r.2.maxNumBits) calls r.1
  | [], b, hinv, hmax, _ => ⟨hinv, List.prefix_refl _, Nat.le_refl _, hmax, Nat.le_add_right _ _,
      List.Forall₂.nil⟩
  | c :: calls, b, hinv, hmax, hcalls => by
    obtain ⟨hw, hc⟩ := hcalls c List.mem_cons_self
    obtain ⟨hinv₁, hrows₁, hmax₁, hmaxle₁, hsize₁, hlt₁, hrow₁, hbits₁⟩ := dedup_spec hinv hw
    obtain ⟨hinv₂, hrows₂, hmax₂, hmaxlt₂, hsize₂, hall⟩ := dedupAll_spec calls hinv₁
      (Nat.lt_of_le_of_lt hmaxle₁ (Nat.max_lt.mpr ⟨hmax, hc⟩))
      (fun c' hc' => hcalls c' (List.mem_cons_of_mem _ hc'))
    have hsize : (b.dedup c.1 c.2).2.size ≤ ((b.dedup c.1 c.2).2.dedupAll calls).2.size :=
      hrows₂.length_le
    dsimp only [dedupAll]
    refine ⟨hinv₂, hrows₁.trans hrows₂, hmax₁.trans hmax₂, hmaxlt₂, ?_, List.Forall₂.cons ?_ hall⟩
    · simp only [List.length_cons] at hsize₂ ⊢
      omega
    · -- the first bitmap's row is among the rows the later calls keep
      refine ⟨Nat.lt_of_lt_of_le hlt₁ hsize, fun j => ?_, hbits₁.trans hmax₂⟩
      rw [getD_of_isPrefix hrows₂ hlt₁, hrow₁, getD_region hw]

theorem dedup_maxNumBits (b : BitmapTableBuilder) (bitmap : List Bool) (numBits : Nat) :
    (b.dedup bitmap numBits).2.maxNumBits = b.maxNumBits ∨
      (b.dedup bitmap numBits).2.maxNumBits = numBits := by
  unfold dedup
  dsimp only
  split
  · exact .inl rfl
  · exact max_choice _ _

/-- The table is as wide as it started or as one of the bitmaps. -/
theorem dedupAll_maxNumBits : ∀ (calls : List (List Bool × Nat)) (b : BitmapTableBuilder),
    (b.dedupAll calls).2.maxNumBits = b.maxNumBits ∨
      ∃ c ∈ calls, (b.dedupAll calls).2.maxNumBits = c.2
  | [], _ => .inl rfl
  | c :: calls, b => by
    dsimp only [dedupAll]
    rcases dedupAll_maxNumBits calls (b.dedup c.1 c.2).2 with h | ⟨c', hc', h⟩
    · rw [h]
      rcases dedup_maxNumBits b c.1 c.2 with h' | h'
      · exact .inl h'
      · exact .inr ⟨c, List.mem_cons_self, h'⟩
    · exact .inr ⟨c', List.mem_cons_of_mem _ hc', h⟩

theorem dedup_empty (bitmap : List Bool) (numBits : Nat) :
    empty.dedup bitmap numBits =
      (0, ⟨[slice bitmap 0 (bitsToBytesRoundUp numBits * kBitsPerByte)],
        [(fnvHash (regionBytes (slice bitmap 0 (bitsToBytesRoundUp numBits * kBitsPerByte))), 0)],
        max 0 numBits⟩) :=
  rfl

end BitmapTableBuilder

end Art
