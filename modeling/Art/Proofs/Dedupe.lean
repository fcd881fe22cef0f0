import Art.Runtime.CodeInfo
import Art.Proofs.BitTable

/-!
# The deduper's output decodes to the code infos it was given

`CodeInfo::Deduper::Dedupe` copies a code info into a shared output, writing a table of more than
32 bits that it has written before as the distance back to that copy.  The proof runs the writer
of one copy against the reader of its output, table by table.

* The map only ever points at copies: an entry with a nonzero offset names a place of the output
  whose bits are the entry's key (`MapInv`).  Emplacing adds a zero entry, and recording a table
  records where its bits were just written.
* The decoding callback marks a table deduped only when the map holds a copy of its bits
  (`Marked`, `marked_markDeduped`), and it leaves the presence bits alone.
* Reading the copy, a table written out is decoded from its own bits and a back-reference from
  the earlier copy (`decodeBitTable_writeBitTable`); either way the reader ends where the writer
  did, so the next table is read where it was written (`decodeBitTables_writeBitTables`).

Offsets are `uint32_t` in the map and in the varints, so the output is taken to have fewer than
`2^32` bits.
-/

namespace Art

open BitList BitMemoryReader Word32

namespace DedupeMap

/-- Emplacing never changes a lookup: a new entry holds `0`, as a missing one reads. -/
theorem get_emplace (m : DedupeMap) (region region' : List Bool) :
    (m.emplace region').get region = m.get region := by
  unfold emplace
  split
  · rfl
  · unfold get
    rw [List.find?_append]
    cases m.find? (fun e => e.1 == region) with
    | some e => simp
    | none =>
      simp only [Option.none_or, List.find?_cons, List.find?_nil]
      split <;> rfl

theorem find?_set (m : DedupeMap) (region region' : List Bool) (bitOffset : Nat) :
    (m.set region' bitOffset).find? (fun e => e.1 == region) =
      (m.find? fun e => e.1 == region).map
        fun e => if e.1 == region' then (e.1, bitOffset) else e := by
  have hkeys : ((fun e : List Bool × Nat => e.1 == region) ∘
      fun e => if e.1 == region' then (e.1, bitOffset) else e) = fun e => e.1 == region := by
    funext e
    simp only [Function.comp]
    split <;> rfl
  unfold set
  rw [List.find?_map, hkeys]

theorem get_eq_of_find? {m : DedupeMap} {region : List Bool} {e : List Bool × Nat}
    (h : (m.find? fun e => e.1 == region) = some e) : m.get region = e.2 := by
  simp [get, h]

/-- A lookup that found an entry still does after a nonzero offset is recorded. -/
theorem get_set_ne_zero {m : DedupeMap} {region : List Bool} (region' : List Bool) {bitOffset : Nat}
    (h : m.get region ≠ 0) (hoff : bitOffset ≠ 0) : (m.set region' bitOffset).get region ≠ 0 := by
  unfold get at h ⊢
  rw [find?_set]
  cases hf : m.find? (fun e => e.1 == region) with
  | none => simp [hf] at h
  | some e =>
    rw [hf] at h
    simp only [Option.map_some, Option.getD_some] at h ⊢
    split
    · exact hoff
    · exact h

/-- Every entry with an offset names a copy of its key in `bits`. -/
def MapInv (m : DedupeMap) (bits : List Bool) : Prop :=
  ∀ e ∈ m, e.2 ≠ 0 → e.2 + e.1.length ≤ bits.length ∧ slice bits e.2 e.1.length = e.1

theorem MapInv.copy_of_get {m : DedupeMap} {bits : List Bool} (hinv : MapInv m bits) {region : List Bool}
    (h : m.get region ≠ 0) :
    m.get region + region.length ≤ bits.length ∧ slice bits (m.get region) region.length = region := by
  cases hf : m.find? (fun e => e.1 == region) with
  | none => simp [DedupeMap.get, hf] at h
  | some e =>
    have hkey : e.1 = region := by simpa using List.find?_some hf
    rw [get_eq_of_find? hf] at h ⊢
    rw [← hkey]
    exact hinv e (List.mem_of_find?_eq_some hf) h

theorem MapInv.append {m : DedupeMap} {bits : List Bool} (hinv : MapInv m bits)
    (more : List Bool) : MapInv m (bits ++ more) := by
  intro e he hne
  obtain ⟨hle, hslice⟩ := hinv e he hne
  refine ⟨by rw [List.length_append]; omega, ?_⟩
  rw [slice_append_left hle, hslice]

theorem MapInv.emplace {m : DedupeMap} {bits : List Bool} (hinv : MapInv m bits)
    (region : List Bool) : MapInv (m.emplace region) bits := by
  intro e he hne
  unfold DedupeMap.emplace at he
  split at he
  · exact hinv e he hne
  · rcases List.mem_append.mp he with he | he
    · exact hinv e he hne
    · rw [List.mem_singleton] at he
      subst he
      exact absurd rfl hne

/-- Recording a table where it is about to be written keeps the map pointing at copies. -/
theorem MapInv.set {m : DedupeMap} {bits : List Bool} (hinv : MapInv m bits)
    (region : List Bool) : MapInv (m.set region bits.length) (bits ++ region) := by
  intro e he hne
  obtain ⟨e', he', rfl⟩ := List.mem_map.mp he
  split
  · rename_i hkey
    rw [beq_iff_eq] at hkey
    show bits.length + e'.1.length ≤ (bits ++ region).length ∧
      slice (bits ++ region) bits.length e'.1.length = e'.1
    rw [hkey]
    refine ⟨by simp, ?_⟩
    simpa using slice_append_self bits region []
  · rename_i hkey
    rw [if_neg hkey] at hne
    exact hinv.append region e' he' hne

end DedupeMap

open DedupeMap

/-! ## The flag bits -/

theorem testBit_setBitTableDeduped (bitTableFlags i k : Nat) :
    (setBitTableDeduped bitTableFlags i).testBit k =
      (bitTableFlags.testBit k || decide (k = kNumBitTables + i)) := by
  unfold setBitTableDeduped
  rw [Nat.testBit_or, Nat.one_shiftLeft, Nat.testBit_two_pow]
  by_cases h : k = kNumBitTables + i
  · simp [h]
  · simp [h, Ne.symm h]

theorem setBitTableDeduped_lt {bitTableFlags i : Nat} (h : bitTableFlags < 2 ^ 32)
    (hi : i < kNumBitTables) : setBitTableDeduped bitTableFlags i < 2 ^ 32 := by
  unfold setBitTableDeduped
  refine Nat.or_lt_two_pow h ?_
  rw [Nat.one_shiftLeft]
  exact Nat.pow_lt_pow_right (by omega) (by unfold kNumBitTables at *; omega)

namespace Deduper

/-- The callback only sets deduped bits, of the tables it has seen. -/
theorem markDeduped_testBit : ∀ (regions : List (Option (List Bool))) (m : DedupeMap)
    (bitTableFlags i k : Nat), k < kNumBitTables + i →
    (markDeduped m bitTableFlags i regions).2.testBit k = bitTableFlags.testBit k
  | [], _, _, _, _, _ => rfl
  | none :: rest, m, bitTableFlags, i, k, hk => by
    rw [markDeduped, markDeduped_testBit rest m bitTableFlags (i + 1) k (by omega)]
  | some region :: rest, m, bitTableFlags, i, k, hk => by
    rw [markDeduped, markDeduped_testBit rest _ _ (i + 1) k (by omega)]
    split
    · rw [testBit_setBitTableDeduped]
      simp only [Bool.or_eq_left_iff_imp, decide_eq_true_eq]
      omega
    · rfl

theorem markDeduped_hasBitTable (regions : List (Option (List Bool))) (m : DedupeMap)
    (bitTableFlags i : Nat) {k : Nat} (hk : k < kNumBitTables) :
    hasBitTable (markDeduped m bitTableFlags i regions).2 k = hasBitTable bitTableFlags k :=
  markDeduped_testBit regions m bitTableFlags i k (by omega)

/-- The callback keeps every lookup: it only emplaces. -/
theorem markDeduped_get : ∀ (regions : List (Option (List Bool))) (m : DedupeMap)
    (bitTableFlags i : Nat) (region : List Bool),
    (markDeduped m bitTableFlags i regions).1.get region = m.get region
  | [], _, _, _, _ => rfl
  | none :: rest, m, bitTableFlags, i, region => markDeduped_get rest m bitTableFlags (i + 1) region
  | some r :: rest, m, bitTableFlags, i, region => by
    rw [markDeduped, markDeduped_get rest, get_emplace]

theorem markDeduped_mapInv {bits : List Bool} : ∀ (regions : List (Option (List Bool)))
    (m : DedupeMap) (bitTableFlags i : Nat), MapInv m bits →
    MapInv (markDeduped m bitTableFlags i regions).1 bits
  | [], _, _, _, h => h
  | none :: rest, m, bitTableFlags, i, h => markDeduped_mapInv rest m bitTableFlags (i + 1) h
  | some r :: rest, m, bitTableFlags, i, h => by
    rw [markDeduped]
    exact markDeduped_mapInv rest _ _ (i + 1) (h.emplace r)

theorem markDeduped_lt : ∀ (regions : List (Option (List Bool))) (m : DedupeMap)
    (bitTableFlags i : Nat), bitTableFlags < 2 ^ 32 → i + regions.length ≤ kNumBitTables →
    (markDeduped m bitTableFlags i regions).2 < 2 ^ 32
  | [], _, _, _, h, _ => h
  | none :: rest, m, bitTableFlags, i, h, hlen =>
    markDeduped_lt rest m bitTableFlags (i + 1) h (by simp at hlen; omega)
  | some r :: rest, m, bitTableFlags, i, h, hlen => by
    rw [markDeduped]
    refine markDeduped_lt rest _ _ (i + 1) ?_ (by simp at hlen; omega)
    split
    · exact setBitTableDeduped_lt h (by simp at hlen; omega)
    · exact h

/-- Every table marked deduped among `regions` has bits of which the map records a copy. -/
def Marked (bitTableFlags : Nat) (m : DedupeMap) : Nat → List (Option (List Bool)) → Prop
  | _, [] => True
  | i, region :: regions =>
    (isBitTableDeduped bitTableFlags i = true → ∃ bits, region = some bits ∧ m.get bits ≠ 0) ∧
      Marked bitTableFlags m (i + 1) regions

theorem Marked.mono {bitTableFlags : Nat} {m m' : DedupeMap}
    (h : ∀ bits, m.get bits ≠ 0 → m'.get bits ≠ 0) :
    ∀ {i : Nat} {regions : List (Option (List Bool))},
      Marked bitTableFlags m i regions → Marked bitTableFlags m' i regions
  | _, [], _ => trivial
  | _, _ :: _, ⟨hhead, hrest⟩ =>
    ⟨fun hd => (hhead hd).imp fun _ hb => ⟨hb.1, h _ hb.2⟩, Marked.mono h hrest⟩

/-- On a code info with no deduped table, the callback marks a table only when the map holds a
copy of its bits. -/
theorem marked_markDeduped : ∀ (regions : List (Option (List Bool))) (m : DedupeMap)
    (bitTableFlags i : Nat),
    (∀ j, i ≤ j → j < i + regions.length → isBitTableDeduped bitTableFlags j = false) →
    Marked (markDeduped m bitTableFlags i regions).2 m i regions
  | [], _, _, _, _ => trivial
  | none :: rest, m, bitTableFlags, i, hclear => by
    have hi := hclear i (Nat.le_refl i) (by simp)
    refine ⟨fun hd => ?_, marked_markDeduped rest m bitTableFlags (i + 1)
      fun j hj hjl => hclear j (by omega) (by simp; omega)⟩
    unfold isBitTableDeduped at hd hi
    rw [markDeduped, markDeduped_testBit rest m bitTableFlags (i + 1) _ (by omega)] at hd
    exact absurd hd (by simp [hi])
  | some region :: rest, m, bitTableFlags, i, hclear => by
    have hi := hclear i (Nat.le_refl i) (by simp)
    rw [markDeduped]
    set marked := if (m.emplace region).get region ≠ 0 ∧ region.length > kMinDedupSize then
      setBitTableDeduped bitTableFlags i else bitTableFlags
    -- marking table `i` leaves the later deduped bits clear
    have hclear' : ∀ j, i + 1 ≤ j → j < i + 1 + rest.length →
        isBitTableDeduped marked j = false := by
      intro j hj hjl
      have hj' := hclear j (by omega) (by simp; omega)
      simp only [marked]
      split
      · unfold isBitTableDeduped at hj' ⊢
        rw [testBit_setBitTableDeduped, hj', Bool.false_or, decide_eq_false_iff_not]
        omega
      · exact hj'
    refine ⟨fun hd => ⟨region, rfl, ?_⟩, ?_⟩
    · unfold isBitTableDeduped at hd hi
      rw [markDeduped_testBit rest _ marked (i + 1) _ (by omega)] at hd
      simp only [marked] at hd
      split at hd
      · rename_i hmark
        rw [← get_emplace m region region]
        exact hmark.1
      · exact absurd hd (by simp [hi])
    · exact Marked.mono (fun bits hb => by rwa [get_emplace] at hb)
        (marked_markDeduped rest _ marked (i + 1) hclear')

end Deduper

/-! ## What the decoding constructor hands to the callback -/

namespace CodeInfo

/-- Table `i` as the decoding constructor leaves it: decoded from its region when present, empty
and without a region when absent. -/
def TableFrom (bitTableFlags i : Nat) (numColumns : Fin 16) (table : BitTable)
    (region : Option (List Bool)) : Prop :=
  if hasBitTable bitTableFlags i then
    ∃ bits, region = some bits ∧ BitTable.TableRegion numColumns bits table
  else region = none ∧ table = BitTable.empty numColumns

/-- `TableFrom` for every table from `i` on. -/
def RegionsOf (bitTableFlags : Nat) :
    Nat → List (Fin 16) → List BitTable → List (Option (List Bool)) → Prop
  | _, [], [], [] => True
  | i, numColumns :: rest, table :: tables, region :: regions =>
    TableFrom bitTableFlags i numColumns table region ∧
      RegionsOf bitTableFlags (i + 1) rest tables regions
  | _, _, _, _ => False

/-- Only the presence bits of the tables matter. -/
theorem RegionsOf.congr {bitTableFlags bitTableFlags' : Nat} :
    ∀ {i : Nat} {cs : List (Fin 16)} {tables : List BitTable} {regions : List (Option (List Bool))},
      (∀ k, i ≤ k → k < i + cs.length → hasBitTable bitTableFlags' k = hasBitTable bitTableFlags k) →
      RegionsOf bitTableFlags i cs tables regions → RegionsOf bitTableFlags' i cs tables regions
  | _, [], [], [], _, h => h
  | i, _ :: cs, _ :: _, _ :: _, hk, ⟨hfrom, hrest⟩ => by
    refine ⟨?_, RegionsOf.congr (fun k hk1 hk2 => hk k (by omega) (by simp; omega)) hrest⟩
    unfold TableFrom at hfrom ⊢
    rwa [hk i (Nat.le_refl i) (by simp)]

theorem decodeBitTables_cons (data : List Bool) (start bitTableFlags i : Nat)
    (numColumns : Fin 16) (rest : List (Fin 16)) (reader : BitMemoryReader) :
    decodeBitTables data start bitTableFlags i (numColumns :: rest) reader =
      ((decodeBitTable data start bitTableFlags i numColumns reader).1 ::
          (decodeBitTables data start bitTableFlags (i + 1) rest
            (decodeBitTable data start bitTableFlags i numColumns reader).2.2).1,
        (decodeBitTable data start bitTableFlags i numColumns reader).2.1 ::
          (decodeBitTables data start bitTableFlags (i + 1) rest
            (decodeBitTable data start bitTableFlags i numColumns reader).2.2).2.1,
        (decodeBitTables data start bitTableFlags (i + 1) rest
            (decodeBitTable data start bitTableFlags i numColumns reader).2.2).2.2) := rfl

theorem decodeBitTable_absent {data : List Bool} {start bitTableFlags i : Nat} (numColumns : Fin 16)
    (reader : BitMemoryReader) (hhas : hasBitTable bitTableFlags i = false) :
    decodeBitTable data start bitTableFlags i numColumns reader =
      (BitTable.empty numColumns, none, reader) := by
  unfold decodeBitTable
  rw [if_neg (by simp [hhas])]

/-- A table stored in place is decoded by the reader itself; its region is the bits read. -/
theorem decodeBitTable_inline {data : List Bool} {start bitTableFlags i : Nat} (numColumns : Fin 16)
    (reader : BitMemoryReader) (hhas : hasBitTable bitTableFlags i = true)
    (hded : isBitTableDeduped bitTableFlags i = false) (hdata : reader.data = data) :
    decodeBitTable data start bitTableFlags i numColumns reader =
      ((BitTable.decode numColumns reader).1,
        some (slice reader.data reader.pos (consumed (BitTable.decode numColumns) reader)),
        (BitTable.decode numColumns reader).2) := by
  unfold decodeBitTable
  rw [if_pos hhas, if_neg (by simp [hded])]
  simp only [BitTable.localRead_decode numColumns |>.start_eq, hdata, pos, consumed]

/-- A back-reference: the distance is read, and the table decoded where it points. -/
theorem decodeBitTable_deduped {data : List Bool} {start bitTableFlags i : Nat} (numColumns : Fin 16)
    (reader : BitMemoryReader) (hhas : hasBitTable bitTableFlags i = true)
    (hded : isBitTableDeduped bitTableFlags i = true) :
    decodeBitTable data start bitTableFlags i numColumns reader =
      let reader2 := BitMemoryReader.create data
        ((start : Int) + ((reader.numberOfReadBits : Int) - reader.readVarint.1)).toNat
      ((BitTable.decode numColumns reader2).1,
        some (BitTable.decode numColumns reader2).2.getReadRegion, reader.readVarint.2) := by
  unfold decodeBitTable
  rw [if_pos hhas, if_pos hded]

/-- The input: with no deduped table, every table is decoded from the region handed to the
callback. -/
theorem regionsOf_decodeBitTables {data : List Bool} {start bitTableFlags : Nat} :
    ∀ (cs : List (Fin 16)) (i : Nat) (reader : BitMemoryReader), reader.data = data →
      (∀ j, i ≤ j → j < i + cs.length → isBitTableDeduped bitTableFlags j = false) →
      RegionsOf bitTableFlags i cs (decodeBitTables data start bitTableFlags i cs reader).1
        (decodeBitTables data start bitTableFlags i cs reader).2.1
  | [], _, _, _, _ => trivial
  | numColumns :: rest, i, reader, hdata, hclear => by
    have hclear' : ∀ j, i + 1 ≤ j → j < i + 1 + rest.length →
        isBitTableDeduped bitTableFlags j = false :=
      fun j hj hjl => hclear j (by omega) (by simp; omega)
    rw [decodeBitTables_cons]
    cases hhas : hasBitTable bitTableFlags i with
    | false =>
      rw [decodeBitTable_absent numColumns reader hhas]
      refine ⟨?_, regionsOf_decodeBitTables rest (i + 1) reader hdata hclear'⟩
      unfold TableFrom
      simp [hhas]
    | true =>
      rw [decodeBitTable_inline numColumns reader hhas (hclear i (Nat.le_refl i) (by simp)) hdata]
      refine ⟨?_, regionsOf_decodeBitTables rest (i + 1) _
        ((BitTable.localRead_decode numColumns).data_eq reader ▸ hdata) hclear'⟩
      unfold TableFrom
      rw [if_pos hhas]
      exact ⟨_, rfl, BitTable.tableRegion_of_decode numColumns reader⟩

theorem RegionsOf.length_eq {bitTableFlags : Nat} :
    ∀ {i : Nat} {cs : List (Fin 16)} {tables : List BitTable} {regions : List (Option (List Bool))},
      RegionsOf bitTableFlags i cs tables regions → regions.length = cs.length
  | _, [], [], [], _ => rfl
  | _, _ :: _, _ :: _, _ :: _, ⟨_, hrest⟩ => by
    rw [List.length_cons, List.length_cons, RegionsOf.length_eq hrest]

/-- The decoding constructor once its header is read. -/
theorem decode_of_readHeader {data : List Bool} {start : Nat} {header : List Nat}
    {reader : BitMemoryReader}
    (h : (BitMemoryReader.create data start).readInterleavedVarints kNumHeaders = (header, reader)) :
    decode data start =
      (⟨header.getD 0 0, header.getD 1 0, header.getD 2 0, header.getD 3 0, header.getD 4 0,
          header.getD 5 0, header.getD 6 0,
          (decodeBitTables data start (header.getD 6 0) 0 bitTableColumns reader).1⟩,
        (decodeBitTables data start (header.getD 6 0) 0 bitTableColumns reader).2.1,
        (decodeBitTables data start (header.getD 6 0) 0 bitTableColumns reader).2.2.numberOfReadBits) := by
  unfold decode
  dsimp only
  rw [h]

/-- Decoding where a code info's header was written gives that code info, with the tables that
follow. -/
theorem decode_fst_of_readHeader {data : List Bool} {start : Nat} {c : CodeInfo}
    {reader : BitMemoryReader}
    (h : (BitMemoryReader.create data start).readInterleavedVarints kNumHeaders = (c.header, reader)) :
    (decode data start).1 =
      { c with tables := (decodeBitTables data start c.bitTableFlags 0 bitTableColumns reader).1 } := by
  rw [decode_of_readHeader h]
  rfl

/-- Every header field of a decoded code info fits in `uint32_t`. -/
theorem header_decode_lt (data : List Bool) (start : Nat) :
    ∀ v ∈ (decode data start).1.header, v < 2 ^ 32 := by
  obtain ⟨header, reader, h⟩ : ∃ header reader,
      (BitMemoryReader.create data start).readInterleavedVarints kNumHeaders = (header, reader) :=
    ⟨_, _, (Prod.eta _).symm⟩
  have hlt : ∀ k, header.getD k 0 < 2 ^ 32 := fun k => by
    have := getD_readInterleavedVarints_lt (BitMemoryReader.create data start) kNumHeaders k
    rwa [h] at this
  rw [decode_of_readHeader h]
  simp only [CodeInfo.header, List.mem_cons, List.not_mem_nil, or_false]
  rintro v (rfl | rfl | rfl | rfl | rfl | rfl | rfl) <;> exact hlt _

/-- A code info as `Dedupe` takes it, fresh from `StackMapStream::Encode`: no table is a
back-reference. -/
def NoDedupedTables (codeInfoData : List Bool) : Prop :=
  ∀ i < kNumBitTables, isBitTableDeduped (decode codeInfoData 0).1.bitTableFlags i = false

instance (codeInfoData : List Bool) : Decidable (NoDedupedTables codeInfoData) :=
  inferInstanceAs (Decidable (∀ i < kNumBitTables, _))

/-- On such a code info every table comes from the region handed to the callback. -/
theorem regionsOf_decode {codeInfoData : List Bool} (hvalid : NoDedupedTables codeInfoData) :
    RegionsOf (decode codeInfoData 0).1.bitTableFlags 0 bitTableColumns
      (decode codeInfoData 0).1.tables (decode codeInfoData 0).2.1 := by
  obtain ⟨header, reader, h⟩ : ∃ header reader,
      (BitMemoryReader.create codeInfoData 0).readInterleavedVarints kNumHeaders = (header, reader) :=
    ⟨_, _, (Prod.eta _).symm⟩
  have hdata : reader.data = codeInfoData := by
    have := (localRead_readInterleavedVarints kNumHeaders).data_eq (BitMemoryReader.create codeInfoData 0)
    rwa [h] at this
  have hvalid' := hvalid
  unfold NoDedupedTables at hvalid'
  rw [decode_of_readHeader h] at hvalid' ⊢
  dsimp only at hvalid' ⊢
  exact @regionsOf_decodeBitTables codeInfoData 0 (header.getD 6 0) bitTableColumns 0 reader hdata
    fun j _ hj => hvalid' j hj

end CodeInfo

/-! ## The writer, table by table -/

namespace Deduper

theorem writeBitTables_cons (bitTableFlags i : Nat) (region : Option (List Bool))
    (rest : List (Option (List Bool))) (w : BitMemoryWriter) (m : DedupeMap) :
    writeBitTables bitTableFlags i (region :: rest) w m =
      writeBitTables bitTableFlags (i + 1) rest (writeBitTable bitTableFlags i region w m).1
        (writeBitTable bitTableFlags i region w m).2 := rfl

theorem writeBitTable_absent {bitTableFlags i : Nat} (region : Option (List Bool))
    (w : BitMemoryWriter) (m : DedupeMap) (hhas : hasBitTable bitTableFlags i = false) :
    writeBitTable bitTableFlags i region w m = (w, m) := by
  unfold writeBitTable
  rw [if_neg (by simp [hhas])]

theorem writeBitTable_inline {bitTableFlags i : Nat} (bits : List Bool) (w : BitMemoryWriter)
    (m : DedupeMap) (hhas : hasBitTable bitTableFlags i = true)
    (hded : isBitTableDeduped bitTableFlags i = false) :
    writeBitTable bitTableFlags i (some bits) w m =
      (w.writeRegion bits, m.set bits (u32 w.numberOfWrittenBits)) := by
  unfold writeBitTable
  rw [if_pos hhas, if_neg (by simp [hded])]
  rfl

theorem writeBitTable_deduped {bitTableFlags i : Nat} (bits : List Bool) (w : BitMemoryWriter)
    (m : DedupeMap) (hhas : hasBitTable bitTableFlags i = true)
    (hded : isBitTableDeduped bitTableFlags i = true) :
    writeBitTable bitTableFlags i (some bits) w m =
      (w.writeVarint (u32 (w.numberOfWrittenBits - m.get bits)), m) := by
  unfold writeBitTable
  rw [if_pos hhas, if_pos hded]
  rfl

theorem writeBitTable_extends (bitTableFlags i : Nat) (region : Option (List Bool))
    (w : BitMemoryWriter) (m : DedupeMap) :
    w.bits <+: (writeBitTable bitTableFlags i region w m).1.bits := by
  unfold writeBitTable
  split_ifs
  · show w.bits <+: (w.writeVarint _).bits
    rw [BitMemoryWriter.writeVarint_bits]
    exact List.prefix_append _ _
  · exact List.prefix_append _ _
  · exact List.prefix_refl _

theorem writeBitTables_extends (bitTableFlags : Nat) :
    ∀ (regions : List (Option (List Bool))) (i : Nat) (w : BitMemoryWriter) (m : DedupeMap),
      w.bits <+: (writeBitTables bitTableFlags i regions w m).1.bits
  | [], _, _, _ => List.prefix_refl _
  | region :: rest, i, w, m =>
    (writeBitTable_extends bitTableFlags i region w m).trans
      (writeBitTables_extends bitTableFlags rest (i + 1) _ _)

/-- One table keeps the map pointing at copies, while offsets fit in `uint32_t`. -/
theorem mapInv_writeBitTable {bitTableFlags i : Nat} (region : Option (List Bool))
    {w : BitMemoryWriter} {m : DedupeMap} (hinv : MapInv m w.bits) (hw : w.bits.length < 2 ^ 32) :
    MapInv (writeBitTable bitTableFlags i region w m).2
      (writeBitTable bitTableFlags i region w m).1.bits := by
  unfold writeBitTable
  split_ifs
  · show MapInv m (w.writeVarint _).bits
    rw [BitMemoryWriter.writeVarint_bits]
    exact hinv.append _
  · show MapInv (m.set _ (u32 w.bits.length)) (w.bits ++ _)
    rw [u32_of_lt hw]
    exact hinv.set _
  · exact hinv

theorem get_writeBitTable_ne_zero {bitTableFlags i : Nat} (region : Option (List Bool))
    {w : BitMemoryWriter} {m : DedupeMap} {bits : List Bool} (h : m.get bits ≠ 0)
    (hpos : 0 < w.bits.length) (hw : w.bits.length < 2 ^ 32) :
    (writeBitTable bitTableFlags i region w m).2.get bits ≠ 0 := by
  unfold writeBitTable
  split_ifs
  · exact h
  · refine get_set_ne_zero _ h ?_
    show u32 w.bits.length ≠ 0
    rw [u32_of_lt hw]
    omega
  · exact h

theorem mapInv_writeBitTables (bitTableFlags : Nat) :
    ∀ (regions : List (Option (List Bool))) (i : Nat) (w : BitMemoryWriter) (m : DedupeMap),
      MapInv m w.bits → (writeBitTables bitTableFlags i regions w m).1.bits.length < 2 ^ 32 →
      MapInv (writeBitTables bitTableFlags i regions w m).2
        (writeBitTables bitTableFlags i regions w m).1.bits
  | [], _, _, _, hinv, _ => hinv
  | region :: rest, i, w, m, hinv, hw => by
    rw [writeBitTables_cons] at hw ⊢
    have hstep := (writeBitTables_extends bitTableFlags rest (i + 1)
      (writeBitTable bitTableFlags i region w m).1 (writeBitTable bitTableFlags i region w m).2).length_le
    have hfirst := (writeBitTable_extends bitTableFlags i region w m).length_le
    exact mapInv_writeBitTables bitTableFlags rest (i + 1) _ _
      (mapInv_writeBitTable region hinv (by omega)) hw

end Deduper

/-! ## Reading the copy back -/

/-- The reader reads `data` from bit `start` and has reached bit `pos`. -/
structure ReadsAt (data : List Bool) (start pos : Nat) (r : BitMemoryReader) : Prop where
  data_eq : r.data = data
  start_eq : r.start = start
  pos_eq : r.pos = pos

open Deduper

/-- One table of a copy reads back as the table of the input, whether it was written in place or
as a back-reference, and the reader ends where the writer did. -/
theorem decodeBitTable_writeBitTable {out : List Bool} {start bitTableFlags i : Nat} {numColumns : Fin 16}
    {table : BitTable} {region : Option (List Bool)} {w : BitMemoryWriter} {m : DedupeMap}
    {r : BitMemoryReader} (hfrom : CodeInfo.TableFrom bitTableFlags i numColumns table region)
    (hmarked : isBitTableDeduped bitTableFlags i = true →
      ∃ bits, region = some bits ∧ m.get bits ≠ 0)
    (hinv : MapInv m w.bits) (hr : ReadsAt out start w.bits.length r)
    (hwritten : (writeBitTable bitTableFlags i region w m).1.bits <+: out)
    (hout : out.length < 2 ^ 32) :
    (CodeInfo.decodeBitTable out start bitTableFlags i numColumns r).1 = table ∧
      ReadsAt out start (writeBitTable bitTableFlags i region w m).1.bits.length
        (CodeInfo.decodeBitTable out start bitTableFlags i numColumns r).2.2 := by
  have hpos := hr.pos_eq
  unfold pos at hpos
  unfold CodeInfo.TableFrom at hfrom
  cases hhas : hasBitTable bitTableFlags i with
  | false =>
    rw [if_neg (by simp [hhas])] at hfrom
    obtain ⟨rfl, rfl⟩ := hfrom
    rw [CodeInfo.decodeBitTable_absent numColumns r hhas, writeBitTable_absent _ w m hhas]
    exact ⟨rfl, hr⟩
  | true =>
    rw [if_pos hhas] at hfrom
    obtain ⟨bits, rfl, htable⟩ := hfrom
    cases hded : isBitTableDeduped bitTableFlags i with
    | false =>
      rw [writeBitTable_inline bits w m hhas hded] at hwritten ⊢
      have hslice : slice r.data r.pos bits.length = bits := by
        rw [hr.data_eq, hr.pos_eq]
        exact slice_of_append_isPrefix hwritten
      rw [CodeInfo.decodeBitTable_inline numColumns r hhas hded hr.data_eq,
        BitTable.decode_of_tableRegion htable hslice]
      refine ⟨rfl, hr.data_eq, hr.start_eq, ?_⟩
      simp only [pos, BitMemoryWriter.writeRegion_bits, List.length_append]
      omega
    | true =>
      obtain ⟨bits', hsome, hget⟩ := hmarked hded
      cases Option.some.inj hsome
      obtain ⟨hle, hcopy⟩ := hinv.copy_of_get hget
      have hw : w.bits.length < 2 ^ 32 :=
        Nat.lt_of_le_of_lt (((writeBitTable_extends _ i _ w m).trans hwritten).length_le) hout
      rw [writeBitTable_deduped bits w m hhas hded] at hwritten ⊢
      have hv : u32 (w.numberOfWrittenBits - m.get bits) = w.bits.length - m.get bits :=
        u32_of_lt (by unfold BitMemoryWriter.numberOfWrittenBits; omega)
      rw [hv, BitMemoryWriter.writeVarint_bits] at hwritten ⊢
      have hvarint := @readVarint_of_slice (w.bits.length - m.get bits) r
        (by omega) (by rw [hr.data_eq, hr.pos_eq]; exact slice_of_append_isPrefix hwritten)
      have htarget : ((start : Int) + ((r.numberOfReadBits : Int) -
          ((w.bits.length - m.get bits : Nat) : Int))).toNat = m.get bits := by
        have := hr.start_eq
        omega
      have hslice : slice (BitMemoryReader.create out (m.get bits)).data
          (BitMemoryReader.create out (m.get bits)).pos bits.length = bits := by
        show slice out (m.get bits + 0) bits.length = bits
        rw [Nat.add_zero, slice_of_isPrefix ((List.prefix_append _ _).trans hwritten) hle, hcopy]
      rw [CodeInfo.decodeBitTable_deduped numColumns r hhas hded]
      simp only [hvarint, htarget]
      rw [BitTable.decode_of_tableRegion htable hslice]
      refine ⟨rfl, hr.data_eq, hr.start_eq, ?_⟩
      simp only [pos, List.length_append]
      omega

/-- The tables of a copy read back as those of the input, and the reader ends where the writer
did. -/
theorem decodeBitTables_writeBitTables {out : List Bool} {start bitTableFlags : Nat}
    (hout : out.length < 2 ^ 32) :
    ∀ (cs : List (Fin 16)) (tables : List BitTable) (regions : List (Option (List Bool))) (i : Nat)
      (w : BitMemoryWriter) (m : DedupeMap) (r : BitMemoryReader),
      CodeInfo.RegionsOf bitTableFlags i cs tables regions → Marked bitTableFlags m i regions →
      MapInv m w.bits → 0 < w.bits.length → ReadsAt out start w.bits.length r →
      (writeBitTables bitTableFlags i regions w m).1.bits <+: out →
      (CodeInfo.decodeBitTables out start bitTableFlags i cs r).1 = tables ∧
        ReadsAt out start (writeBitTables bitTableFlags i regions w m).1.bits.length
          (CodeInfo.decodeBitTables out start bitTableFlags i cs r).2.2
  | [], [], [], _, _, _, _, _, _, _, _, hr, _ => ⟨rfl, hr⟩
  | numColumns :: cs, table :: tables, region :: regions, i, w, m, r, ⟨hfrom, hrest⟩,
      ⟨hmarked, hmrest⟩, hinv, hpos, hr, hwritten => by
    rw [writeBitTables_cons] at hwritten ⊢
    rw [CodeInfo.decodeBitTables_cons]
    have hstep := (writeBitTables_extends bitTableFlags regions (i + 1)
      (writeBitTable bitTableFlags i region w m).1 (writeBitTable bitTableFlags i region w m).2)
    have hfirst := writeBitTable_extends bitTableFlags i region w m
    have hw : w.bits.length < 2 ^ 32 :=
      Nat.lt_of_le_of_lt (hfirst.trans (hstep.trans hwritten)).length_le hout
    obtain ⟨htable, hr'⟩ :=
      decodeBitTable_writeBitTable hfrom hmarked hinv hr (hstep.trans hwritten) hout
    obtain ⟨htables, hr''⟩ := decodeBitTables_writeBitTables hout cs tables regions (i + 1) _ _ _
      hrest (hmrest.mono fun bits hb => get_writeBitTable_ne_zero region hb hpos hw)
      (mapInv_writeBitTable region hinv hw) (Nat.lt_of_lt_of_le hpos hfirst.length_le) hr' hwritten
    exact ⟨by rw [htable, htables], hr''⟩
  | [], _ :: _, _, _, _, _, _, h, _, _, _, _, _ => h.elim
  | [], [], _ :: _, _, _, _, _, h, _, _, _, _, _ => h.elim
  | _ :: _, [], _, _, _, _, _, h, _, _, _, _, _ => h.elim
  | _ :: _, _ :: _, [], _, _, _, _, h, _, _, _, _, _ => h.elim

/-! ## A whole copy, and a run of copies -/

/-- The code info with other table flags. -/
def CodeInfo.withBitTableFlags (c : CodeInfo) (bitTableFlags : Nat) : CodeInfo :=
  { c with bitTableFlags }

theorem header_withBitTableFlags_lt {c : CodeInfo} {bitTableFlags : Nat}
    (hc : ∀ v ∈ c.header, v < 2 ^ 32) (hb : bitTableFlags < 2 ^ 32) :
    ∀ v ∈ (c.withBitTableFlags bitTableFlags).header, v < 2 ^ 32 := by
  intro v hv
  simp only [CodeInfo.header, CodeInfo.withBitTableFlags, List.mem_cons, List.not_mem_nil,
    or_false] at hv
  rcases hv with rfl | rfl | rfl | rfl | rfl | rfl | rfl
  all_goals first | exact hb | exact hc _ (by simp [CodeInfo.header])

/-- The same code info up to which tables are back-references: the same header fields, the same
present tables, and equal tables. -/
def CodeInfo.SameContent (a b : CodeInfo) : Prop :=
  a.flags = b.flags ∧ a.codeSize = b.codeSize ∧ a.packedFrameSize = b.packedFrameSize ∧
    a.coreSpillMask = b.coreSpillMask ∧ a.fpSpillMask = b.fpSpillMask ∧
    a.numberOfDexRegisters = b.numberOfDexRegisters ∧
    (∀ i < kNumBitTables, hasBitTable a.bitTableFlags i = hasBitTable b.bitTableFlags i) ∧
    a.tables = b.tables

namespace Deduper

/-- The callback's result in `Dedupe`: the map with every present table emplaced, and the flags
with the marks. -/
def marks (d : Deduper) (codeInfoData : List Bool) : DedupeMap × Nat :=
  markDeduped d.dedupeMap (CodeInfo.decode codeInfoData 0).1.bitTableFlags 0
    (CodeInfo.decode codeInfoData 0).2.1

/-- The header `Dedupe` writes: the input's, with the marks. -/
def headerOf (d : Deduper) (codeInfoData : List Bool) : List Nat :=
  ((CodeInfo.decode codeInfoData 0).1.withBitTableFlags (marks d codeInfoData).2).header

theorem dedupe_fst (d : Deduper) (codeInfoData : List Bool) :
    (d.dedupe codeInfoData).1 =
      let written := writeBitTables (marks d codeInfoData).2 0 (CodeInfo.decode codeInfoData 0).2.1
        (d.writer.byteAlign.writeInterleavedVarints (headerOf d codeInfoData))
        (marks d codeInfoData).1
      ⟨written.1, written.2⟩ := rfl

theorem dedupe_extends (d : Deduper) (codeInfoData : List Bool) :
    d.writer.bits <+: (d.dedupe codeInfoData).1.writer.bits := by
  rw [dedupe_fst]
  refine List.IsPrefix.trans ?_ (writeBitTables_extends _ _ 0 _ _)
  rw [BitMemoryWriter.writeInterleavedVarints_bits]
  exact (List.prefix_append _ _).trans (List.prefix_append _ _)

/-- The copy starts at the byte boundary the writer aligned to. -/
theorem dedupe_offset (d : Deduper) (codeInfoData : List Bool) :
    kBitsPerByte * (d.dedupe codeInfoData).2 = d.writer.byteAlign.bits.length := by
  have h := BitMemoryWriter.byteAlign_length_mod d.writer
  show kBitsPerByte * (d.writer.byteAlign.bits.length / kBitsPerByte) = _
  unfold kBitsPerByte at h ⊢
  omega

/-- The map, emplaced by the callback, still points at copies once the writer is aligned and the
header written. -/
theorem mapInv_marks {d : Deduper} (hinv : MapInv d.dedupeMap d.writer.bits)
    (codeInfoData : List Bool) (header : List Nat) :
    MapInv (marks d codeInfoData).1 (d.writer.byteAlign.writeInterleavedVarints header).bits := by
  rw [BitMemoryWriter.writeInterleavedVarints_bits]
  exact markDeduped_mapInv _ _ _ 0 ((hinv.append _).append _)

theorem mapInv_dedupe {d : Deduper} (hinv : MapInv d.dedupeMap d.writer.bits)
    (codeInfoData : List Bool) (hw : (d.dedupe codeInfoData).1.writer.bits.length < 2 ^ 32) :
    MapInv (d.dedupe codeInfoData).1.dedupeMap (d.dedupe codeInfoData).1.writer.bits := by
  rw [dedupe_fst] at hw ⊢
  exact mapInv_writeBitTables _ _ 0 _ _ (mapInv_marks hinv codeInfoData _) hw

end Deduper

open CodeInfo

/-- Decoding a copy written by `Dedupe` gives back the code info it was made from, wherever the
output goes on after it. -/
theorem sameContent_decode_dedupe {d : Deduper} {codeInfoData : List Bool}
    (hinv : MapInv d.dedupeMap d.writer.bits) (hvalid : NoDedupedTables codeInfoData)
    {out : List Bool} (hwritten : (d.dedupe codeInfoData).1.writer.bits <+: out)
    (hout : out.length < 2 ^ 32) :
    SameContent (decode out (kBitsPerByte * (d.dedupe codeInfoData).2)).1
      (decode codeInfoData 0).1 := by
  rw [dedupe_fst] at hwritten
  rw [dedupe_offset]
  have hregions := regionsOf_decode hvalid
  have hmarks : ∀ k < kNumBitTables,
      hasBitTable (marks d codeInfoData).2 k = hasBitTable (decode codeInfoData 0).1.bitTableFlags k :=
    fun k hk => markDeduped_hasBitTable _ _ _ 0 hk
  set start := d.writer.byteAlign.bits.length
  set w1 := d.writer.byteAlign.writeInterleavedVarints (headerOf d codeInfoData)
  have hw1 : w1.bits = d.writer.byteAlign.bits ++ interleavedVarintBits (headerOf d codeInfoData) :=
    BitMemoryWriter.writeInterleavedVarints_bits _ _
  have hwritten1 : w1.bits <+: out := (writeBitTables_extends _ _ 0 _ _).trans hwritten
  have hheader_lt : ∀ v ∈ headerOf d codeInfoData, v < 2 ^ 32 :=
    header_withBitTableFlags_lt (header_decode_lt codeInfoData 0)
      (markDeduped_lt _ _ _ 0 (header_decode_lt codeInfoData 0 _ (by simp [header]))
        (by rw [hregions.length_eq]; decide))
  have hread := @readInterleavedVarints_of_slice (headerOf d codeInfoData)
    (BitMemoryReader.create out start) hheader_lt (by
      show slice out (start + 0) _ = _
      rw [Nat.add_zero]
      exact slice_of_append_isPrefix (hw1 ▸ hwritten1))
  have hr1 : ReadsAt out start w1.bits.length
      { BitMemoryReader.create out start with
        numberOfReadBits := (BitMemoryReader.create out start).numberOfReadBits +
          (interleavedVarintBits (headerOf d codeInfoData)).length } :=
    ⟨rfl, rfl, by simp [pos, BitMemoryReader.create, hw1, start]⟩
  have hpos : 0 < w1.bits.length := by
    have hlen := BitMemoryWriter.interleavedVarintBits_length (headerOf d codeInfoData)
    rw [show (headerOf d codeInfoData).length = 7 from rfl] at hlen
    unfold kVarintBits at hlen
    rw [hw1, List.length_append]
    omega
  have hmarked : Marked (marks d codeInfoData).2 (marks d codeInfoData).1 0
      (decode codeInfoData 0).2.1 :=
    Marked.mono (fun bits hb => by rwa [marks, markDeduped_get]) (marked_markDeduped _ _ _ 0
      fun j _ hj => hvalid j (by rwa [hregions.length_eq] at hj))
  obtain ⟨htables, -⟩ := decodeBitTables_writeBitTables hout bitTableColumns _ _ 0 w1 _ _
    (hregions.congr fun k _ hk => hmarks k hk) hmarked (mapInv_marks hinv codeInfoData _) hpos hr1
    hwritten
  rw [decode_fst_of_readHeader hread]
  simp only [SameContent, CodeInfo.withBitTableFlags, true_and]
  exact ⟨hmarks, htables⟩

namespace Deduper

theorem dedupeAll_cons (d : Deduper) (codeInfoData : List Bool) (rest : List (List Bool)) :
    d.dedupeAll (codeInfoData :: rest) =
      (((d.dedupe codeInfoData).1.dedupeAll rest).1,
        (d.dedupe codeInfoData).2 :: ((d.dedupe codeInfoData).1.dedupeAll rest).2) := rfl

theorem dedupeAll_extends :
    ∀ (inputs : List (List Bool)) (d : Deduper), d.writer.bits <+: (d.dedupeAll inputs).1.writer.bits
  | [], _ => List.prefix_refl _
  | codeInfoData :: rest, d =>
    (dedupe_extends d codeInfoData).trans (dedupeAll_extends rest (d.dedupe codeInfoData).1)

end Deduper

/-- Every copy of a run decodes to its input, wherever the output goes on after the run; the
map is carried from copy to copy. -/
theorem forall₂_sameContent_dedupeAll : ∀ (inputs : List (List Bool)) (d : Deduper)
    (out : List Bool), MapInv d.dedupeMap d.writer.bits → (∀ c ∈ inputs, NoDedupedTables c) →
    (d.dedupeAll inputs).1.writer.bits <+: out → out.length < 2 ^ 32 →
    List.Forall₂ (fun c offset => SameContent (decode out (kBitsPerByte * offset)).1 (decode c 0).1)
      inputs (d.dedupeAll inputs).2
  | [], _, _, _, _, _, _ => List.Forall₂.nil
  | codeInfoData :: rest, d, out, hinv, hvalid, hwritten, hout => by
    rw [dedupeAll_cons] at hwritten ⊢
    have hcopy := (dedupeAll_extends rest (d.dedupe codeInfoData).1).trans hwritten
    refine List.Forall₂.cons
      (sameContent_decode_dedupe hinv (hvalid codeInfoData List.mem_cons_self) hcopy hout) ?_
    exact forall₂_sameContent_dedupeAll rest _ out
      (mapInv_dedupe hinv codeInfoData (Nat.lt_of_le_of_lt hcopy.length_le hout))
      (fun c hc => hvalid c (List.mem_cons_of_mem _ hc)) hwritten hout

/-- `CodeInfo::Deduper` preserves meaning: each copy it returns decodes, in its final output, to
the code info it was given, tables replaced by back-references included. -/
theorem dedupe_preserves_code_infos (inputs : List (List Bool))
    (hvalid : ∀ c ∈ inputs, NoDedupedTables c)
    (hout : (Deduper.create.dedupeAll inputs).1.writer.bits.length < 2 ^ 32) :
    List.Forall₂ (fun c offset => SameContent
        (decode (Deduper.create.dedupeAll inputs).1.writer.bits (kBitsPerByte * offset)).1
        (decode c 0).1)
      inputs (Deduper.create.dedupeAll inputs).2 :=
  forall₂_sameContent_dedupeAll inputs Deduper.create _ (fun _ he _ => absurd he List.not_mem_nil)
    hvalid (List.prefix_refl _) hout

/-- A code info with a stack map table of one row, 72 bits in all, as `StackMapStream::Encode`
writes it. -/
def sampleCodeInfo : List Bool :=
  (encodeBitTable 8 [[1, 2, 3, 4, 5, 6, 7, 8]]
    ((BitMemoryWriter.mk []).writeInterleavedVarints [0, 4, 0, 0, 0, 0, 1])).bits

/-- The second copy of the sample replaces its table by a back-reference. -/
example : isBitTableDeduped
    (decode (Deduper.create.dedupeAll [sampleCodeInfo, sampleCodeInfo]).1.writer.bits
      (kBitsPerByte * (Deduper.create.dedupeAll [sampleCodeInfo, sampleCodeInfo]).2.getD 1 0)).1.bitTableFlags
    0 = true := by
  decide +kernel

theorem dedupe_preserves_code_infos_twice :
    (∀ c ∈ [sampleCodeInfo, sampleCodeInfo], NoDedupedTables c) ∧
      (Deduper.create.dedupeAll [sampleCodeInfo, sampleCodeInfo]).1.writer.bits.length < 2 ^ 32 ∧
      List.Forall₂ (fun c offset => SameContent
          (decode (Deduper.create.dedupeAll [sampleCodeInfo, sampleCodeInfo]).1.writer.bits
            (kBitsPerByte * offset)).1 (decode c 0).1)
        [sampleCodeInfo, sampleCodeInfo] (Deduper.create.dedupeAll [sampleCodeInfo, sampleCodeInfo]).2 :=
  have hvalid : ∀ c ∈ [sampleCodeInfo, sampleCodeInfo], NoDedupedTables c := by
    decide +kernel
  have hout : (Deduper.create.dedupeAll [sampleCodeInfo, sampleCodeInfo]).1.writer.bits.length <
      2 ^ 32 := by
    decide +kernel
  ⟨hvalid, hout, dedupe_preserves_code_infos _ hvalid hout⟩

end Art
