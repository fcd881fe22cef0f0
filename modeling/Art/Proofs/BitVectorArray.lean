import Art.Base.BitVectorArray
import Art.Proofs.BitVector

/-!
# The cells of a bit vector array

Cell `(row, col)` with `col < num_columns_` is bit `row * num_columns_ + col`, and no two cells
share a bit (`cell_eq_iff`), so `SetBit` sets one cell and leaves every other as it was.  After
`Resize` the rows are whole words and all of them are in the storage (`Shaped`); then the word
loop of `UnionRows` or-s the cells of row `other` into those of `dest` and touches no other row
(`isBitSet_unionRows`), also when the two rows are the same.  The source passes the bit index as
a `uint32_t`, so all this holds while the cells fit below `2 ^ 32` bits, which `Shaped` keeps:
then no index wraps and `SetBit` inside the rows never grows the storage.
-/

namespace Art

namespace BitVector

open WordBits

theorem bit_ofStartBits (startBits i : Nat) : bit (ofStartBits startBits).storage i = false := by
  unfold bit ofStartBits
  rw [getD_replicate_zero, getLsbD_zero]

theorem members_ofStartBits (startBits : Nat) : (ofStartBits startBits).members = ∅ :=
  members_eq_empty _ (bit_ofStartBits startBits)

/-- `BitsToWords` is a `uint32_t` over `kWordBits`: a new vector is below `2 ^ 27` words. -/
theorem length_ofStartBits_lt (startBits : Nat) : (ofStartBits startBits).storage.length < 2 ^ 27 := by
  unfold ofStartBits bitsToWords kWordBits
  rw [List.length_replicate]
  have := Word32.u32_lt (startBits + 32 - 1)
  omega

/-- `Indexes()` lists the members. -/
theorem mem_indexes {v : BitVector} {i : Nat} : i ∈ v.indexes ↔ i ∈ v.members := by
  unfold indexes
  rw [List.mem_filter, List.mem_range, mem_members_iff]
  refine ⟨And.right, fun h => ⟨?_, h⟩⟩
  rw [isBitSet_eq, Bool.and_eq_true, decide_eq_true_iff] at h
  exact h.1

end BitVector

namespace BitVectorArray

open BitVector WordBits Word32

/-- The layout `Resize` leaves: every row is whole words, every row is in the storage, and the
storage is below `2 ^ 27` words, so that no bit index wraps. -/
structure Shaped (a : BitVectorArray) : Prop where
  numColumns_mod : a.numColumns % kWordBits = 0
  storage_le : a.numRows * a.numColumns ≤ a.data.storage.length * kWordBits
  storage_lt : a.data.storage.length < 2 ^ 27

/-- A cell inside the rows and columns is a bit before `num_rows_ * num_columns_`. -/
theorem cell_lt {R C r c : Nat} (hr : r < R) (hc : c < C) : r * C + c < R * C :=
  calc r * C + c < r * C + C := Nat.add_lt_add_left hc _
    _ = (r + 1) * C := (Nat.succ_mul r C).symm
    _ ≤ R * C := Nat.mul_le_mul_right C hr

section Cells

variable {a : BitVectorArray} (hs : a.Shaped) {row col : Nat} (hrow : row < a.numRows)
  (hcol : col < a.numColumns)
include hs hrow hcol

/-- The bit of a cell does not wrap, and is inside `storage_size_ * kWordBits`. -/
theorem cell_lt_getBitSizeOf : row * a.numColumns + col < a.data.getBitSizeOf := by
  have hlt := cell_lt hrow hcol
  have hle := hs.storage_le
  rw [a.data.getBitSizeOf_eq hs.storage_lt]
  omega

theorem u32_cell : u32 (row * a.numColumns + col) = row * a.numColumns + col := by
  have := cell_lt_getBitSizeOf hs hrow hcol
  have := Word32.u32_lt (a.data.storage.length * kWordBits)
  unfold getBitSizeOf at *
  exact u32_of_lt (by omega)

theorem isBitSet_eq_bit : a.isBitSet row col = bit a.data.storage (row * a.numColumns + col) := by
  unfold isBitSet
  rw [u32_cell hs hrow hcol, a.data.isBitSet_eq_bit hs.storage_lt]

end Cells

/-- Two cells inside the columns are the same bit only when they are the same cell. -/
theorem cell_eq_iff {C r c r' c' : Nat} (hc : c < C) (hc' : c' < C) :
    r * C + c = r' * C + c' ↔ r = r' ∧ c = c' := by
  constructor
  · intro h
    rw [Nat.add_comm (r * C), Nat.add_comm (r' * C)] at h
    have hC : 0 < C := Nat.lt_of_le_of_lt (Nat.zero_le c) hc
    have hrow := congrArg (· / C) h
    have hcol := congrArg (· % C) h
    simp only [Nat.add_mul_div_right _ _ hC, Nat.div_eq_of_lt hc, Nat.div_eq_of_lt hc',
      Nat.add_mul_mod_self_right, Nat.mod_eq_of_lt hc, Nat.mod_eq_of_lt hc'] at hrow hcol
    omega
  · rintro ⟨rfl, rfl⟩
    rfl

section SetBit

variable {a : BitVectorArray} (hs : a.Shaped) {row col : Nat} (hrow : row < a.numRows)
  (hcol : col < a.numColumns)
include hs hrow hcol

/-- `SetBit` inside the rows and columns keeps the storage. -/
theorem length_setBit : (a.setBit row col).data.storage.length = a.data.storage.length := by
  show (a.data.setBit (u32 (row * a.numColumns + col))).storage.length = _
  rw [u32_cell hs hrow hcol]
  exact a.data.length_setBit_of_lt (cell_lt_getBitSizeOf hs hrow hcol)

theorem Shaped.setBit : (a.setBit row col).Shaped :=
  ⟨hs.numColumns_mod, by rw [length_setBit hs hrow hcol]; exact hs.storage_le,
    by rw [length_setBit hs hrow hcol]; exact hs.storage_lt⟩

theorem isBitSet_setBit {r c : Nat} (hr : r < a.numRows) (hc : c < a.numColumns) :
    (a.setBit row col).isBitSet r c = (a.isBitSet r c || decide (r = row ∧ c = col)) := by
  have hcell := cell_lt_getBitSizeOf hs hrow hcol
  have hle := a.data.getBitSizeOf_le
  have hlt := hs.storage_lt
  unfold kWordBits at hle
  rw [isBitSet_eq_bit (hs.setBit hrow hcol) hr hc, isBitSet_eq_bit hs hr hc]
  show bit (a.data.setBit (u32 (row * a.numColumns + col))).storage (r * a.numColumns + c) = _
  rw [u32_cell hs hrow hcol, a.data.bit_setBit (by omega),
    decide_eq_decide.2 (cell_eq_iff hc hcol)]

end SetBit

section UnionRows

variable {a : BitVectorArray} {d o : Nat}

/-- Row `r`'s words are the block of row `r`: word `r * B + j` is in the block of `d` only for
`r = d`. -/
theorem mem_block_iff {B r j : Nat} (hj : j < B) :
    d * B ≤ r * B + j ∧ r * B + j < d * B + B ↔ r = d := by
  constructor
  · rintro ⟨hlo, hhi⟩
    have hr : r * B < (d + 1) * B := by rw [Nat.succ_mul]; omega
    have hd : d * B < (r + 1) * B := by rw [Nat.succ_mul]; omega
    have := Nat.lt_of_mul_lt_mul_right hr
    have := Nat.lt_of_mul_lt_mul_right hd
    omega
  · rintro rfl
    omega

/-- The blocks of two rows are the same or apart. -/
theorem block_sep (B d o : Nat) : o * B = d * B ∨ o * B + B ≤ d * B ∨ d * B + B ≤ o * B := by
  rcases Nat.lt_trichotomy o d with h | rfl | h
  · exact Or.inr (Or.inl (by rw [← Nat.succ_mul]; exact Nat.mul_le_mul_right B h))
  · exact Or.inl rfl
  · exact Or.inr (Or.inr (by rw [← Nat.succ_mul]; exact Nat.mul_le_mul_right B h))

theorem length_unionRows (a : BitVectorArray) (d o : Nat) :
    (a.unionRows d o).data.storage.length = a.data.storage.length :=
  length_foldl_set _ _ _ _

theorem getD_unionRows (hs : a.Shaped) (hd : d < a.numRows) (k : Nat) :
    (a.unionRows d o).data.storage.getD k 0 =
      if d * (a.numColumns / kWordBits) ≤ k ∧
          k < d * (a.numColumns / kWordBits) + a.numColumns / kWordBits then
        a.data.storage.getD k 0 |||
          a.data.storage.getD (k - d * (a.numColumns / kWordBits) + o * (a.numColumns / kWordBits)) 0
      else a.data.storage.getD k 0 := by
  have hdvd : kWordBits ∣ a.numColumns := Nat.dvd_of_mod_eq_zero hs.numColumns_mod
  have hlen : d * (a.numColumns / kWordBits) + a.numColumns / kWordBits ≤ a.data.storage.length := by
    have hrows : a.numRows * (a.numColumns / kWordBits) ≤ a.data.storage.length := by
      have := hs.storage_le
      rw [← Nat.div_mul_cancel hdvd, ← Nat.mul_assoc] at this
      exact Nat.le_of_mul_le_mul_right this (by decide)
    rw [← Nat.succ_mul]
    exact Nat.le_trans (Nat.mul_le_mul_right _ hd) hrows
  unfold unionRows
  simp only [Nat.mul_div_assoc _ hdvd]
  exact getD_foldl_or hlen (block_sep _ d o) k

theorem Shaped.unionRows (hs : a.Shaped) (d o : Nat) : (a.unionRows d o).Shaped :=
  ⟨hs.numColumns_mod, by rw [length_unionRows]; exact hs.storage_le,
    by rw [length_unionRows]; exact hs.storage_lt⟩

/-- `UnionRows(dest, other)`: row `dest` becomes the union of the two rows, the others stay. -/
theorem isBitSet_unionRows (hs : a.Shaped) (hd : d < a.numRows) (ho : o < a.numRows) {c : Nat}
    (hc : c < a.numColumns) {r : Nat} (hr : r < a.numRows) :
    (a.unionRows d o).isBitSet r c =
      if r = d then a.isBitSet d c || a.isBitSet o c else a.isBitSet r c := by
  obtain ⟨B, hB⟩ : ∃ B, a.numColumns = B * kWordBits :=
    ⟨a.numColumns / kWordBits, (Nat.div_mul_cancel (Nat.dvd_of_mod_eq_zero hs.numColumns_mod)).symm⟩
  have hj : c / kWordBits < B := by unfold kWordBits at hB ⊢; omega
  -- cell `(r, c)` is bit `c % 32` of word `r * B + c / 32`
  have hcell : ∀ r, r * a.numColumns + c = (r * B + c / kWordBits) * kWordBits + c % kWordBits := by
    intro r
    rw [hB, Nat.add_mul, Nat.mul_assoc]
    unfold kWordBits
    omega
  have hbit : ∀ ws : List (BitVec 32), ∀ r, bit ws (r * a.numColumns + c) =
      (ws.getD (r * B + c / kWordBits) 0).getLsbD (c % kWordBits) := fun ws r => by
    rw [hcell]
    exact bit_mul_add _ _ (Nat.mod_lt _ (by decide))
  have hBdiv : a.numColumns / kWordBits = B := by rw [hB, Nat.mul_div_cancel _ (by decide)]
  have hleft : (a.unionRows d o).isBitSet r c =
      ((a.unionRows d o).data.storage.getD (r * B + c / kWordBits) 0).getLsbD (c % kWordBits) :=
    (isBitSet_eq_bit (hs.unionRows d o) hr hc).trans (hbit _ r)
  rw [hleft, getD_unionRows hs hd, hBdiv]
  simp only [mem_block_iff hj]
  split_ifs with hrd
  · subst hrd
    rw [isBitSet_eq_bit hs hd hc, isBitSet_eq_bit hs ho hc, hbit, hbit, BitVec.getLsbD_or,
      Nat.add_sub_cancel_left, Nat.add_comm (c / kWordBits) (o * B)]
  · rw [isBitSet_eq_bit hs hr hc, hbit]

end UnionRows

section Resize

theorem roundUp_mod (x : Nat) : roundUp x kWordBits % kWordBits = 0 :=
  Nat.mul_mod_left _ _

theorem le_roundUp (x : Nat) : x ≤ roundUp x kWordBits := by
  unfold roundUp kWordBits
  omega

variable {rows cols : Nat} (hsize : rows * roundUp cols kWordBits < 2 ^ 32)
include hsize

/-- `Resize(rows, cols)` of the empty array: `SetBit` grows the storage to the words of the
cells, and `ClearBit` clears the bit again. -/
theorem resize_empty_storage :
    (empty.resize rows cols).data.storage.length * kWordBits = rows * roundUp cols kWordBits ∧
      ∀ k, (empty.resize rows cols).data.storage.getD k 0 = 0 := by
  have hmod : rows * roundUp cols kWordBits % kWordBits = 0 :=
    Nat.mod_eq_zero_of_dvd (Dvd.dvd.mul_left (Nat.dvd_of_mod_eq_zero (roundUp_mod cols)) rows)
  show ((BitVector.mk [] |>.setBit (u32 (rows * roundUp cols kWordBits + 2 ^ 64 - 1))).clearBit
      (u32 (rows * roundUp cols kWordBits + 2 ^ 64 - 1))).storage.length * kWordBits = _ ∧
    ∀ k, ((BitVector.mk [] |>.setBit (u32 (rows * roundUp cols kWordBits + 2 ^ 64 - 1))).clearBit
      (u32 (rows * roundUp cols kWordBits + 2 ^ 64 - 1))).storage.getD k 0 = 0
  generalize rows * roundUp cols kWordBits = N at hsize hmod ⊢
  unfold kWordBits at hmod ⊢
  rcases Nat.eq_zero_or_pos N with rfl | hN
  · -- no cell: the last bit wraps to `2 ^ 32 - 1`, and `BitsToWords(2 ^ 32)` to no word
    have hnil : ((BitVector.mk [] |>.setBit (u32 (0 + 2 ^ 64 - 1))).clearBit
        (u32 (0 + 2 ^ 64 - 1))) = BitVector.mk [] := by decide
    rw [hnil]
    exact ⟨rfl, fun _ => rfl⟩
  · have hlast : u32 (N + 2 ^ 64 - 1) = N - 1 := by unfold u32; omega
    rw [hlast]
    have hlen : (BitVector.mk [] |>.setBit (N - 1)).storage.length = N / 32 := by
      obtain ⟨hlo, hhi⟩ := (BitVector.mk []).length_setBit (show N - 1 < 2 ^ 32 - 32 by omega)
      rw [List.length_nil] at hhi
      omega
    refine ⟨by rw [length_clearBit, hlen]; omega, fun k => ?_⟩
    rw [getD_clearBit _ (by rw [hlen]; omega), getD_setBit _ (by omega)]
    split_ifs <;> simp

theorem isBitSet_resize_empty (r c : Nat) : (empty.resize rows cols).isBitSet r c = false := by
  unfold isBitSet
  rw [BitVector.isBitSet_eq, bit, (resize_empty_storage hsize).2, getLsbD_zero, Bool.and_false]

theorem shaped_resize_empty : (empty.resize rows cols).Shaped := by
  obtain ⟨hlen, -⟩ := resize_empty_storage hsize
  refine ⟨roundUp_mod cols, ?_, ?_⟩
  · rw [hlen]
    rfl
  · unfold kWordBits at hlen hsize
    omega

end Resize

end BitVectorArray

end Art
