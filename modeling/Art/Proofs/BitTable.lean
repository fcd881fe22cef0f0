import Mathlib
import Art.Base.BitTable
import Art.Proofs.BitMemory

/-!
# Bit tables are decoded from their own bits

`BitTable.decode` is a local read (`localRead_decode`): a table is a function of the bits it is
decoded from.  `TableRegion numColumns region table` says that decoding `region` from its start
gives `table` and reads all of `region`; then a reader anywhere whose next bits are `region`
decodes the same table and reads exactly `region` (`decode_of_tableRegion`), which is what lets a
copied table, or a back-reference to one, stand for the original.
-/

namespace Art

open BitList BitMemoryReader

namespace BitTable

theorem localRead_decode (numColumns : Fin 16) : LocalRead (decode numColumns) :=
  (localRead_readInterleavedVarints (1 + (numColumns : Nat))).bind fun header =>
    (localRead_readRegion (header.headD 0 * ((header.drop 1).sum % 2 ^ 16))).bind fun tableData =>
      localRead_pure (BitTable.mk (header.headD 0) (header.drop 1) tableData)

/-- `region` is the encoding of `table`: decoding it from its first bit reads all of it. -/
def TableRegion (numColumns : Fin 16) (region : List Bool) (table : BitTable) : Prop :=
  decode numColumns (BitMemoryReader.create region 0) = (table, ⟨region, 0, region.length⟩)

/-- A reader whose next bits are a table's region decodes that table and reads its region. -/
theorem decode_of_tableRegion {numColumns : Fin 16} {region : List Bool} {table : BitTable}
    (h : TableRegion numColumns region table) {r : BitMemoryReader}
    (hslice : slice r.data r.pos region.length = region) :
    decode numColumns r =
      (table, { r with numberOfReadBits := r.numberOfReadBits + region.length }) := by
  have hop := localRead_decode numColumns
  have hconsumed : consumed (decode numColumns) (BitMemoryReader.create region 0) = region.length := by
    unfold consumed
    rw [h]
    rfl
  have hagree : Agree (BitMemoryReader.create region 0) r region.length := by
    unfold Agree
    rw [hslice]
    simp [pos, BitMemoryReader.create, slice_self]
  obtain ⟨hval, hcons⟩ := hop.agree _ r _ hagree (Nat.le_of_eq hconsumed)
  rw [h] at hval
  rw [hconsumed] at hcons
  have hdata := hop.data_eq r
  have hstart := hop.start_eq r
  have hread : (decode numColumns r).2.numberOfReadBits = r.numberOfReadBits + region.length := by
    have := hop.le_read r
    unfold consumed at hcons
    omega
  rw [Prod.ext_iff]
  refine ⟨hval, ?_⟩
  cases hr : (decode numColumns r).2
  rw [hr] at hdata hstart hread
  simp only at hdata hstart hread
  rw [hdata, hstart, hread]

/-- Decoding a table from a reader: the table's region is the bits it read. -/
theorem tableRegion_of_decode (numColumns : Fin 16) (r : BitMemoryReader) :
    TableRegion numColumns (slice r.data r.pos (consumed (decode numColumns) r))
      (decode numColumns r).1 := by
  have hop := localRead_decode numColumns
  set n := consumed (decode numColumns) r
  set region := slice r.data r.pos n
  have hagree : Agree r (BitMemoryReader.create region 0) n := by
    have hself := slice_self region
    rw [length_slice] at hself
    exact hself.symm
  obtain ⟨hval, hcons⟩ := hop.agree r _ n hagree (Nat.le_refl _)
  have hdata := hop.data_eq (BitMemoryReader.create region 0)
  have hstart := hop.start_eq (BitMemoryReader.create region 0)
  unfold TableRegion
  rw [Prod.ext_iff]
  refine ⟨hval, ?_⟩
  unfold consumed at hcons
  cases hr : (decode numColumns (BitMemoryReader.create region 0)).2
  rw [hr] at hdata hstart hcons
  simp only [BitMemoryReader.create] at hdata hstart hcons
  simp only [length_slice, region, hdata, hstart]
  congr

end BitTable

/-! ## Encoding a table and decoding it back

`Encode` writes the header, the row count and the width of each column, and then every row,
each value biased and in its column's width.  A reader at the writer's start decodes the header
back (`decode_encodeBitTable`); the table data it then reads is the rows written, since 15
columns of at most 32 bits fit the `uint16_t` column offsets, and each cell is found at its place
as long as the table has at most `2 ^ 32` bits, the reach of the `uint32_t` cell offsets
(`bit_table_round_trip`). -/

section Widths

theorem foldl_or_lt_iff (f : List Nat → Nat) (n : Nat) :
    ∀ (rows : List (List Nat)) (acc : Nat), rows.foldl (fun acc row => acc ||| f row) acc < 2 ^ n ↔
      acc < 2 ^ n ∧ ∀ row ∈ rows, f row < 2 ^ n
  | [], acc => by simp
  | row :: rows, acc => by
    rw [List.foldl_cons, foldl_or_lt_iff f n rows, List.forall_mem_cons]
    constructor
    · rintro ⟨h, hrest⟩
      exact ⟨Nat.lt_of_le_of_lt Nat.left_le_or h, Nat.lt_of_le_of_lt Nat.right_le_or h, hrest⟩
    · rintro ⟨hacc, hrow, hrest⟩
      exact ⟨Nat.or_lt_two_pow hacc hrow, hrest⟩

theorem foldr_max_lt_iff (n : Nat) :
    ∀ xs : List Nat, xs.foldr max 0 < 2 ^ n ↔ ∀ x ∈ xs, x < 2 ^ n
  | [] => by simp
  | x :: xs => by rw [List.foldr_cons, Nat.max_lt, foldr_max_lt_iff n xs, List.forall_mem_cons]

/-- The bits the or of a column's values needs are the bits its largest value needs. -/
theorem minimumBitsToStore_foldl_or (f : List Nat → Nat) (rows : List (List Nat)) :
    minimumBitsToStore (rows.foldl (fun acc row => acc ||| f row) 0) =
      minimumBitsToStore ((rows.map f).foldr max 0) := by
  apply eq_of_forall_ge_iff
  intro n
  rw [minimumBitsToStore_le_iff, minimumBitsToStore_le_iff, foldl_or_lt_iff, foldr_max_lt_iff,
    List.forall_mem_map]
  exact and_iff_right (Nat.two_pow_pos n)

@[simp] theorem length_measureColumns (numColumns : Nat) (rows : List (List Nat)) :
    (measureColumns numColumns rows).length = numColumns := by
  simp [measureColumns]

theorem getD_measureColumns {numColumns c : Nat} (rows : List (List Nat)) (hc : c < numColumns) :
    (measureColumns numColumns rows).getD c 0 =
      minimumBitsToStore (rows.foldl (fun acc row => acc ||| biasedValue (row.getD c 0)) 0) := by
  simp [measureColumns, hc]

theorem biasedValue_lt_measureColumns (numColumns : Nat) {c : Nat} {rows : List (List Nat)}
    (hc : c < numColumns) {row : List Nat} (hrow : row ∈ rows) :
    biasedValue (row.getD c 0) < 2 ^ (measureColumns numColumns rows).getD c 0 := by
  rw [getD_measureColumns rows hc]
  exact ((foldl_or_lt_iff (fun row => biasedValue (row.getD c 0)) _ rows 0).mp
    (lt_two_pow_minimumBitsToStore _)).2 row hrow

theorem measureColumns_le {numColumns : Nat} (rows : List (List Nat)) :
    ∀ w ∈ measureColumns numColumns rows, w ≤ 32 := by
  intro w hw
  obtain ⟨c, -, rfl⟩ := List.mem_map.mp hw
  rw [minimumBitsToStore_le_iff, foldl_or_lt_iff]
  exact ⟨Nat.two_pow_pos _, fun row _ => Nat.mod_lt _ (Nat.two_pow_pos _)⟩

/-- The row of a table of at most 15 columns fits the `uint16_t` column offsets. -/
theorem measureColumns_sum_lt (numColumns : Fin 16) (rows : List (List Nat)) :
    (measureColumns numColumns rows).sum < 2 ^ 16 := by
  have hle : ∀ w ∈ measureColumns numColumns rows, w ≤ 32 := measureColumns_le rows
  have h := List.sum_le_card_nsmul _ 32 hle
  rw [length_measureColumns, smul_eq_mul] at h
  have := numColumns.isLt
  omega

theorem map_range_getD {cb : List Nat} {n : Nat} (h : cb.length = n) :
    (List.range n).map (fun c => cb.getD c 0) = cb := by
  subst h
  apply List.ext_getElem (by simp)
  intro i h1 h2
  simp [h2]

theorem sum_take_le_sum (cb : List Nat) (k : Nat) : (cb.take k).sum ≤ cb.sum :=
  Nat.le.intro (List.sum_take_add_sum_drop cb k)

/-- Adding `kValueBias` back gives the value in `uint32_t`. -/
theorem biasedValue_add_kNoValue (v : Nat) : (biasedValue v + kNoValue) % 2 ^ 32 = v % 2 ^ 32 := by
  unfold biasedValue kNoValue
  omega

end Widths

/-- The blocks `Encode` writes for one row: each value in its column's width. -/
def rowBlocks (numColumns : Nat) (columnBits row : List Nat) : List (List Bool) :=
  (List.range numColumns).map fun c => ofNat (biasedValue (row.getD c 0)) (columnBits.getD c 0)

def rowBits (numColumns : Nat) (columnBits row : List Nat) : List Bool :=
  (rowBlocks numColumns columnBits row).flatten

theorem map_length_rowBlocks {numColumns : Nat} {columnBits : List Nat}
    (hlen : columnBits.length = numColumns) (row : List Nat) :
    (rowBlocks numColumns columnBits row).map List.length = columnBits := by
  conv_rhs => rw [← map_range_getD hlen]
  simp [rowBlocks]

theorem length_rowBits {numColumns : Nat} {columnBits : List Nat}
    (hlen : columnBits.length = numColumns) (row : List Nat) :
    (rowBits numColumns columnBits row).length = columnBits.sum := by
  rw [rowBits, List.length_flatten, map_length_rowBlocks hlen]

/-- Column `c` of a row is its value in the column's width. -/
theorem slice_rowBits {numColumns : Nat} {columnBits : List Nat}
    (hlen : columnBits.length = numColumns) (row : List Nat) {c : Nat} (hc : c < numColumns) :
    slice (rowBits numColumns columnBits row) (columnBits.take c).sum (columnBits.getD c 0) =
      ofNat (biasedValue (row.getD c 0)) (columnBits.getD c 0) := by
  have hc' : c < (rowBlocks numColumns columnBits row).length := by simpa [rowBlocks] using hc
  have hblock := slice_flatten_getElem hc'
  rw [List.map_take, map_length_rowBlocks hlen] at hblock
  simpa [rowBits, rowBlocks] using hblock

theorem foldl_writeRows_bits (numColumns : Nat) (columnBits : List Nat) :
    ∀ (rows : List (List Nat)) (out : BitMemoryWriter),
      (rows.foldl (fun out row => (List.range numColumns).foldl (fun out c =>
        out.writeBits (biasedValue (row.getD c 0)) (columnBits.getD c 0)) out) out).bits =
        out.bits ++ (rows.map (rowBits numColumns columnBits)).flatten
  | [], out => by simp
  | row :: rows, out => by
    rw [List.foldl_cons, foldl_writeRows_bits numColumns columnBits rows,
      BitMemoryWriter.foldl_writeBits_bits, List.map_cons, List.flatten_cons, List.append_assoc]
    rfl

theorem encodeBitTable_bits (numColumns : Nat) (rows : List (List Nat)) (out : BitMemoryWriter) :
    (encodeBitTable numColumns rows out).bits = out.bits ++
      interleavedVarintBits (rows.length :: measureColumns numColumns rows) ++
      (rows.map (rowBits numColumns (measureColumns numColumns rows))).flatten := by
  unfold encodeBitTable
  dsimp only
  rw [foldl_writeRows_bits, BitMemoryWriter.writeInterleavedVarints_bits]

theorem length_rowBits_of_mem (numColumns : Nat) (rows : List (List Nat)) :
    ∀ b ∈ rows.map (rowBits numColumns (measureColumns numColumns rows)),
      b.length = (measureColumns numColumns rows).sum := by
  intro b hb
  obtain ⟨row, -, rfl⟩ := List.mem_map.mp hb
  exact length_rowBits (length_measureColumns _ _) row

theorem length_encodedRows (numColumns : Nat) (rows : List (List Nat)) :
    (rows.map (rowBits numColumns (measureColumns numColumns rows))).flatten.length =
      rows.length * (measureColumns numColumns rows).sum := by
  rw [List.length_flatten, sum_map_length_of_forall (length_rowBits_of_mem numColumns rows),
    List.length_map]

/-- A reader whose next bits are a table header reads the row count and the column widths, and
then the row count times the row width in `uint16_t`. -/
theorem decode_of_header {numColumns : Fin 16} {count : Nat} {widths : List Nat}
    (pre rest : List Bool) (hlen : widths.length = numColumns)
    (hv : ∀ v ∈ count :: widths, v < 2 ^ 32) :
    let bits := pre ++ interleavedVarintBits (count :: widths) ++ rest
    BitTable.decode numColumns (BitMemoryReader.create bits pre.length) =
      (⟨count, widths, slice bits (pre.length + (interleavedVarintBits (count :: widths)).length)
          (count * (widths.sum % 2 ^ 16))⟩,
        ⟨bits, pre.length,
          (interleavedVarintBits (count :: widths)).length + count * (widths.sum % 2 ^ 16)⟩) := by
  intro bits
  have hslice : slice bits (pre.length + 0) (interleavedVarintBits (count :: widths)).length =
      interleavedVarintBits (count :: widths) := by
    rw [Nat.add_zero]
    exact slice_of_append_isPrefix (List.prefix_append _ _)
  have hl : 1 + (numColumns : Nat) = (count :: widths).length := by
    simp [hlen, Nat.add_comm]
  unfold BitTable.decode
  rw [hl, readInterleavedVarints_of_slice hv hslice]
  simp [readRegion, BitMemoryReader.create]

/-- A reader at the writer's start reads the header back, and then the rows written: with at
most 15 columns the row width fits the `uint16_t` column offsets. -/
theorem decode_encodeBitTable (numColumns : Fin 16) {rows : List (List Nat)} (pre : List Bool)
    (hcount : rows.length < 2 ^ 32) :
    BitTable.decode numColumns
        (BitMemoryReader.create (encodeBitTable numColumns rows ⟨pre⟩).bits pre.length) =
      (⟨rows.length, measureColumns numColumns rows,
          (rows.map (rowBits numColumns (measureColumns numColumns rows))).flatten⟩,
        ⟨(encodeBitTable numColumns rows ⟨pre⟩).bits, pre.length,
          (interleavedVarintBits (rows.length :: measureColumns numColumns rows)).length +
            rows.length * (measureColumns numColumns rows).sum⟩) := by
  set cb := measureColumns numColumns rows with hcb
  set header := interleavedVarintBits (rows.length :: cb)
  set data := (rows.map (rowBits numColumns cb)).flatten
  have hbits : (encodeBitTable numColumns rows ⟨pre⟩).bits = pre ++ header ++ data :=
    encodeBitTable_bits _ _ _
  have hdata : data.length = rows.length * cb.sum := length_encodedRows numColumns rows
  have hmod : cb.sum % 2 ^ 16 = cb.sum := Nat.mod_eq_of_lt (measureColumns_sum_lt numColumns rows)
  -- the header fields fit in `uint32_t`: the count by assumption, the widths are at most 32
  have hv : ∀ v ∈ rows.length :: cb, v < 2 ^ 32 := by
    intro v hv
    rcases List.mem_cons.mp hv with rfl | hv
    · exact hcount
    · exact Nat.lt_of_le_of_lt (measureColumns_le rows v hv) (by decide)
  have hregion : slice (pre ++ header ++ data) (pre.length + header.length)
      (rows.length * cb.sum) = data := by
    rw [← hdata, ← List.length_append]
    exact slice_of_append_isPrefix (List.prefix_refl _)
  have hd := decode_of_header pre data (length_measureColumns _ _) hv
  dsimp only at hd
  rw [hmod, hregion] at hd
  rw [hbits]
  exact hd

/-- What `Encode` writes after the header is the region of the table read back. -/
theorem tableRegion_encodeBitTable (numColumns : Fin 16) {rows : List (List Nat)}
    (hcount : rows.length < 2 ^ 32) :
    BitTable.TableRegion numColumns
      (interleavedVarintBits (rows.length :: measureColumns numColumns rows) ++
        (rows.map (rowBits numColumns (measureColumns numColumns rows))).flatten)
      ⟨rows.length, measureColumns numColumns rows,
        (rows.map (rowBits numColumns (measureColumns numColumns rows))).flatten⟩ := by
  have hbits : (encodeBitTable numColumns rows ⟨[]⟩).bits =
      interleavedVarintBits (rows.length :: measureColumns numColumns rows) ++
        (rows.map (rowBits numColumns (measureColumns numColumns rows))).flatten := by
    rw [encodeBitTable_bits, List.nil_append]
  have hd := decode_encodeBitTable numColumns [] hcount
  rw [hbits, List.length_nil] at hd
  unfold BitTable.TableRegion
  rw [hd, List.length_append, length_encodedRows]

/-- A decoded table has fewer than `2 ^ 32` rows: the count is a varint. -/
theorem numRows_decode_lt (numColumns : Fin 16) (r : BitMemoryReader) :
    (BitTable.decode numColumns r).1.numRows < 2 ^ 32 := by
  have hlt := getD_readInterleavedVarints_lt r (1 + (numColumns : Nat)) 0
  unfold BitTable.decode
  rcases h : r.readInterleavedVarints (1 + (numColumns : Nat)) with ⟨header, reader⟩
  rw [h, List.getD_eq_getElem?_getD, ← List.head?_eq_getElem?] at hlt
  show header.headD 0 < 2 ^ 32
  rw [List.headD_eq_head?_getD]
  exact hlt

/-- Column offsets below a row width that fits `uint16_t` are not narrowed. -/
theorem columnOffset_of_width (t : BitTable) (hwidth : t.columnBits.sum < 2 ^ 16) (k : Nat) :
    t.columnOffset k = (t.columnBits.take k).sum :=
  Nat.mod_eq_of_lt (Nat.lt_of_le_of_lt (sum_take_le_sum _ _) hwidth)

theorem numRowBits_of_width (t : BitTable) (hwidth : t.columnBits.sum < 2 ^ 16) :
    t.numRowBits = t.columnBits.sum := by
  rw [BitTable.numRowBits, columnOffset_of_width t hwidth, List.take_length]

theorem numColumnBits_of_width (t : BitTable) (hwidth : t.columnBits.sum < 2 ^ 16) {c : Nat}
    (hc : c < t.columnBits.length) : t.numColumnBits c = t.columnBits.getD c 0 := by
  have hsucc : (t.columnBits.take (c + 1)).sum = (t.columnBits.take c).sum + t.columnBits.getD c 0 := by
    rw [List.sum_take_succ _ _ hc, List.getD_eq_getElem _ 0 hc]
  have hle : (t.columnBits.take (c + 1)).sum ≤ t.columnBits.sum := sum_take_le_sum _ _
  unfold BitTable.numColumnBits
  rw [columnOffset_of_width t hwidth, columnOffset_of_width t hwidth]
  omega

/-- A cell whose bits end by `2 ^ 32` is read at its offset: the `uint32_t` sum does not wrap. -/
theorem BitTable.getBitMemoryRegion_of_le (t : BitTable) {row column : Nat}
    (h : row * t.numRowBits + t.columnOffset column + t.numColumnBits column ≤ 2 ^ 32) :
    t.getBitMemoryRegion row column =
      slice t.tableData (row * t.numRowBits + t.columnOffset column) (t.numColumnBits column) :=
  slice_mod_two_pow t.tableData h

/-- A cell of the rows read back is the value written, in `uint32_t`, in a row that ends by bit
`2 ^ 32`. -/
theorem get_encodedRows (numColumns : Fin 16) {rows : List (List Nat)} {row : Nat}
    (hsize : (row + 1) * (measureColumns numColumns rows).sum ≤ 2 ^ 32)
    (hr : row < rows.length) {c : Nat} (hc : c < numColumns) :
    (BitTable.mk rows.length (measureColumns numColumns rows)
        (rows.map (rowBits numColumns (measureColumns numColumns rows))).flatten).get row c =
      rows[row].getD c 0 % 2 ^ 32 := by
  set cb := measureColumns numColumns rows
  set t : BitTable := ⟨rows.length, cb, (rows.map (rowBits numColumns cb)).flatten⟩
  have hwidth : cb.sum < 2 ^ 16 := measureColumns_sum_lt numColumns rows
  have hcbLen : cb.length = numColumns := length_measureColumns _ _
  have hfits := biasedValue_lt_measureColumns numColumns hc (List.getElem_mem hr)
  have hrowSlice : slice t.tableData (row * cb.sum) cb.sum = rowBits numColumns cb rows[row] := by
    have := slice_flatten_of_length (length_rowBits_of_mem numColumns rows) (i := row)
      (by simpa using hr)
    rwa [List.getElem_map] at this
  have hcolumn : (cb.take c).sum + cb.getD c 0 ≤ cb.sum := by
    rw [List.getD_eq_getElem _ _ (by omega), ← List.sum_take_succ _ _ (by omega)]
    exact sum_take_le_sum _ _
  have hend : row * cb.sum + (cb.take c).sum + cb.getD c 0 ≤ 2 ^ 32 := by
    rw [Nat.succ_mul] at hsize
    omega
  have hfield : t.getBitMemoryRegion row c =
      ofNat (biasedValue (rows[row].getD c 0)) (cb.getD c 0) := by
    rw [BitTable.getBitMemoryRegion_of_le t (by
        rw [numRowBits_of_width t hwidth, columnOffset_of_width t hwidth,
          numColumnBits_of_width t hwidth (show c < cb.length by omega)]
        exact hend),
      numRowBits_of_width t hwidth, columnOffset_of_width t hwidth,
      numColumnBits_of_width t hwidth (show c < cb.length by omega), ← slice_slice hcolumn,
      hrowSlice, slice_rowBits hcbLen _ hc]
  unfold BitTable.get
  rw [hfield, toNat_ofNat, Nat.mod_eq_of_lt hfits, biasedValue_add_kNoValue]

theorem foldl_writeRegion_bits (maxNumBits : Nat) :
    ∀ (rows : List (List Bool)) (out : BitMemoryWriter),
      (rows.foldl (fun out row => out.writeRegion (slice row 0 maxNumBits)) out).bits =
        out.bits ++ (rows.map fun row => slice row 0 maxNumBits).flatten
  | [], out => by simp
  | row :: rows, out => by
    rw [List.foldl_cons, foldl_writeRegion_bits maxNumBits rows, List.map_cons, List.flatten_cons,
      ← List.append_assoc]
    rfl

theorem encodeBitmapTable_bits (maxNumBits : Nat) (rows : List (List Bool)) (out : BitMemoryWriter) :
    (encodeBitmapTable maxNumBits rows out).bits = out.bits ++
      interleavedVarintBits [rows.length, maxNumBits] ++
      (rows.map fun row => slice row 0 maxNumBits).flatten := by
  unfold encodeBitmapTable
  dsimp only
  rw [foldl_writeRegion_bits, BitMemoryWriter.writeInterleavedVarints_bits]

theorem bitmap_table_round_trip (maxNumBits : Nat) (rows : List (List Bool)) (pre : List Bool)
    (hcount : rows.length < 2 ^ 32) (hwidth : maxNumBits < 2 ^ 16)
    (hsize : rows.length * maxNumBits ≤ 2 ^ 32) :
    let w := encodeBitmapTable maxNumBits rows ⟨pre⟩
    let d := BitTable.decode 1 (BitMemoryReader.create w.bits pre.length)
    d.1.numRows = rows.length ∧ d.1.numColumnBits 0 = maxNumBits ∧
      (∀ row (hr : row < rows.length), d.1.getBitMemoryRegion row 0 = slice rows[row] 0 maxNumBits) ∧
      d.2.numberOfReadBits = w.numberOfWrittenBits - pre.length := by
  intro w d
  set header := interleavedVarintBits [rows.length, maxNumBits]
  set data := (rows.map fun row => slice row 0 maxNumBits).flatten
  have hbits : w.bits = pre ++ header ++ data := encodeBitmapTable_bits _ _ _
  have hrowLen : ∀ b ∈ rows.map (fun row => slice row 0 maxNumBits), b.length = maxNumBits := by
    intro b hb
    obtain ⟨row, -, rfl⟩ := List.mem_map.mp hb
    exact length_slice _ _ _
  have hdata : data.length = rows.length * maxNumBits := by
    rw [List.length_flatten, sum_map_length_of_forall hrowLen, List.length_map]
  have hmod : maxNumBits % 2 ^ 16 = maxNumBits := Nat.mod_eq_of_lt hwidth
  have hregion : slice w.bits (pre.length + header.length) (rows.length * maxNumBits) = data := by
    rw [← hdata, hbits, ← List.length_append]
    exact slice_of_append_isPrefix (List.prefix_refl _)
  have hd : d = (⟨rows.length, [maxNumBits], data⟩,
      ⟨w.bits, pre.length, header.length + rows.length * maxNumBits⟩) := by
    have hv : ∀ v ∈ [rows.length, maxNumBits], v < 2 ^ 32 := by
      intro v hv
      simp only [List.mem_cons, List.not_mem_nil, or_false] at hv
      rcases hv with rfl | rfl <;> omega
    have := decode_of_header pre data (show [maxNumBits].length = ((1 : Fin 16) : Nat) from rfl) hv
    simp only [List.sum_cons, List.sum_nil, Nat.add_zero, hmod] at this
    rw [← hbits, hregion] at this
    exact this
  set t : BitTable := ⟨rows.length, [maxNumBits], data⟩
  have hcolumn : t.numColumnBits 0 = maxNumBits := by
    simp only [t, BitTable.numColumnBits, BitTable.columnOffset, List.take_add_one, List.take_zero,
      List.getElem?_cons_zero, Option.toList_some, List.nil_append, List.sum_cons, List.sum_nil,
      Nat.add_zero, hmod, Nat.zero_mod]
    omega
  have hrowBits : t.numRowBits = maxNumBits := by
    simp only [t, BitTable.numRowBits, BitTable.columnOffset, List.length_singleton,
      List.take_add_one, List.take_zero, List.getElem?_cons_zero, Option.toList_some, List.nil_append,
      List.sum_cons, List.sum_nil, Nat.add_zero, hmod]
  refine ⟨by rw [hd], by rw [hd, hcolumn], fun row hr => ?_, ?_⟩
  · have hrow := slice_flatten_of_length hrowLen (i := row) (by simpa using hr)
    rw [List.getElem_map] at hrow
    have hend : row * maxNumBits + maxNumBits ≤ 2 ^ 32 := by
      have := Nat.mul_le_mul_right maxNumBits hr
      rw [Nat.succ_mul] at this
      omega
    rw [hd, BitTable.getBitMemoryRegion_of_le t (by rw [hrowBits, hcolumn]; exact hend)]
    show slice data (row * t.numRowBits + t.columnOffset 0) (t.numColumnBits 0) = _
    rw [hrowBits, hcolumn, show t.columnOffset 0 = 0 from rfl, Nat.add_zero, hrow]
  · rw [hd]
    simp only [BitMemoryWriter.numberOfWrittenBits, hbits, List.length_append, hdata]
    omega

end Art
