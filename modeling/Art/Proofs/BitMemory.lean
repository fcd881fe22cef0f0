import Art.Base.BitMemory

/-!
# Bit streams: reads are local, and varints read back what was written

A read looks at the bits it consumes and at nothing else: two readers whose next bits agree on a
window at least as long as what a read consumes get the same value from it and consume the same
number of bits (`LocalRead`).  Region and bit reads are local, and locality is kept by sequencing
(`LocalRead.bind`), so every decoder built from them is local.

The writer's varints read back as the values written (`readInterleavedVarints_of_slice`), for
values that fit in `uint32_t`.
-/

namespace Art

open BitList

namespace BitMemoryReader

/-- The absolute position of the next bit to read. -/
def pos (r : BitMemoryReader) : Nat := r.start + r.numberOfReadBits

/-- Two readers see the same next `n` bits. -/
def Agree (r r' : BitMemoryReader) (n : Nat) : Prop :=
  slice r.data r.pos n = slice r'.data r'.pos n

/-- The number of bits a read consumes. -/
def consumed {α : Type} (op : BitMemoryReader → α × BitMemoryReader) (r : BitMemoryReader) : Nat :=
  (op r).2.numberOfReadBits - r.numberOfReadBits

/-- A read that keeps the stream, only moves forward, and depends only on the bits it consumes. -/
structure LocalRead {α : Type} (op : BitMemoryReader → α × BitMemoryReader) : Prop where
  data_eq : ∀ r, (op r).2.data = r.data
  start_eq : ∀ r, (op r).2.start = r.start
  le_read : ∀ r, r.numberOfReadBits ≤ (op r).2.numberOfReadBits
  agree : ∀ r r' n, Agree r r' n → consumed op r ≤ n →
    (op r').1 = (op r).1 ∧ consumed op r' = consumed op r

variable {α β : Type}

theorem pos_after {op : BitMemoryReader → α × BitMemoryReader} (hop : LocalRead op)
    (r : BitMemoryReader) : (op r).2.pos = r.pos + consumed op r := by
  have := hop.le_read r
  unfold pos consumed
  rw [hop.start_eq]
  omega

/-- After a local read, readers that agreed on `n` bits agree on the rest of the window. -/
theorem LocalRead.agree_after {op : BitMemoryReader → α × BitMemoryReader} (hop : LocalRead op)
    {r r' : BitMemoryReader} {n : Nat} (h : Agree r r' n) (hc : consumed op r ≤ n) :
    Agree (op r).2 (op r').2 (n - consumed op r) := by
  obtain ⟨-, hc'⟩ := hop.agree r r' n h hc
  unfold Agree
  rw [pos_after hop, pos_after hop, hop.data_eq, hop.data_eq, hc']
  exact slice_eq_of_slice_eq h (by omega)

theorem localRead_pure (a : α) : LocalRead fun r => (a, r) where
  data_eq _ := rfl
  start_eq _ := rfl
  le_read _ := Nat.le_refl _
  agree _ _ _ _ _ := by simp [consumed]

theorem localRead_readRegion (bitLength : Nat) : LocalRead fun r => r.readRegion bitLength where
  data_eq _ := rfl
  start_eq _ := rfl
  le_read r := Nat.le_add_right _ _
  agree r r' n h hc := by
    have hc' : bitLength ≤ n := by simpa [consumed, readRegion] using hc
    have hslice := slice_eq_of_slice_eq h (show 0 + bitLength ≤ n by omega)
    simp only [Nat.add_zero, pos] at hslice
    simp [consumed, readRegion, hslice]

theorem LocalRead.bind {op : BitMemoryReader → α × BitMemoryReader}
    {next : α → BitMemoryReader → β × BitMemoryReader} (hop : LocalRead op)
    (hnext : ∀ a, LocalRead (next a)) :
    LocalRead fun r => next (op r).1 (op r).2 where
  data_eq r := by rw [(hnext _).data_eq, hop.data_eq]
  start_eq r := by rw [(hnext _).start_eq, hop.start_eq]
  le_read r := Nat.le_trans (hop.le_read r) ((hnext _).le_read _)
  agree r r' n h hc := by
    -- the first read sees the same bits, so the second starts from agreeing readers
    have h1 := hop.le_read r
    have h2 := (hnext (op r).1).le_read (op r).2
    have htotal : consumed (fun r => next (op r).1 (op r).2) r =
        consumed op r + consumed (next (op r).1) (op r).2 := by
      unfold consumed
      dsimp only
      omega
    rw [htotal] at hc
    obtain ⟨ha, hc1'⟩ := hop.agree r r' n h (by omega)
    have hagree := hop.agree_after h (by omega)
    obtain ⟨hb, hc2'⟩ := (hnext (op r).1).agree _ _ _ hagree (by omega)
    have h1' := hop.le_read r'
    have h2' := (hnext (op r').1).le_read (op r').2
    have htotal' : consumed (fun r => next (op r).1 (op r).2) r' =
        consumed op r' + consumed (next (op r').1) (op r').2 := by
      unfold consumed
      dsimp only
      omega
    rw [ha] at htotal' ⊢
    rw [htotal', htotal, hc1', hc2']
    exact ⟨hb, rfl⟩

theorem localRead_ite (c : Prop) [Decidable c] {op op' : BitMemoryReader → α × BitMemoryReader}
    (hop : LocalRead op) (hop' : LocalRead op') :
    LocalRead fun r => if c then op r else op' r := by
  by_cases hc : c
  · simpa only [if_pos hc] using hop
  · simpa only [if_neg hc] using hop'

theorem localRead_readBits (bitLength : Nat) : LocalRead fun r => r.readBits bitLength :=
  (localRead_readRegion bitLength).bind fun region => localRead_pure (toNat region)

theorem localRead_readLargeVarints : ∀ xs : List Nat, LocalRead (readLargeVarints xs)
  | [] => localRead_pure []
  | x :: xs =>
    (localRead_ite (x > kVarintMax) (localRead_readBits _) (localRead_pure x)).bind fun value =>
      (localRead_readLargeVarints xs).bind fun values => localRead_pure (value :: values)

theorem localRead_readInterleavedVarints (n : Nat) :
    LocalRead fun r => r.readInterleavedVarints n :=
  (localRead_readBits (n * kVarintBits)).bind fun data =>
    localRead_readLargeVarints
      ((List.range n).map fun i => data / 2 ^ (i * kVarintBits) % 2 ^ kVarintBits)

end BitMemoryReader

/-! ## Varints -/

/-- The whole bytes a large varint value takes. -/
def varintBytes (value : Nat) : Nat := bitsToBytesRoundUp (minimumBitsToStore value)

/-- What `WriteInterleavedVarints` appends: the first fields, then the large values. -/
def interleavedVarintBits (values : List Nat) : List Bool :=
  (values.map fun v => ofNat (BitMemoryWriter.varintHeader v) kVarintBits).flatten ++
    (values.map fun v => if v > kVarintMax then ofNat v (varintBytes v * kBitsPerByte) else []).flatten

theorem lt_two_pow_minimumBitsToStore (value : Nat) : value < 2 ^ minimumBitsToStore value := by
  unfold minimumBitsToStore
  split
  · subst value
    decide
  · exact Nat.lt_log2_self

theorem minimumBitsToStore_le_iff {value n : Nat} :
    minimumBitsToStore value ≤ n ↔ value < 2 ^ n := by
  unfold minimumBitsToStore
  split
  · rename_i h
    subst h
    simp
  · rename_i h
    rw [Nat.add_one_le_iff, Nat.log2_lt h]

theorem minimumBitsToStore_le {value : Nat} (h : value < 2 ^ 32) : minimumBitsToStore value ≤ 32 :=
  minimumBitsToStore_le_iff.mpr h

/-- A large `uint32_t` takes one to four bytes, and fits them. -/
theorem varintBytes_spec {value : Nat} (h : value < 2 ^ 32) (hl : value > kVarintMax) :
    1 ≤ varintBytes value ∧ varintBytes value ≤ 4 ∧ value < 2 ^ (varintBytes value * kBitsPerByte) := by
  have hmin := minimumBitsToStore_le h
  have hpos : minimumBitsToStore value ≠ 0 := by
    unfold minimumBitsToStore
    rw [if_neg (by unfold kVarintMax at hl; omega)]
    omega
  refine ⟨?_, ?_, ?_⟩
  · unfold varintBytes bitsToBytesRoundUp kBitsPerByte; omega
  · unfold varintBytes bitsToBytesRoundUp kBitsPerByte; omega
  · refine Nat.lt_of_lt_of_le (lt_two_pow_minimumBitsToStore value)
      (Nat.pow_le_pow_right (by omega) ?_)
    unfold varintBytes bitsToBytesRoundUp kBitsPerByte
    omega

theorem varintHeader_lt {value : Nat} (h : value < 2 ^ 32) :
    BitMemoryWriter.varintHeader value < 2 ^ kVarintBits := by
  unfold BitMemoryWriter.varintHeader
  split
  · have := varintBytes_spec h ‹_›
    unfold varintBytes kVarintMax at *
    unfold kVarintBits
    omega
  · unfold kVarintMax kVarintBits at *
    omega

/-- The first field is large exactly when the value is, and then it counts the bytes. -/
theorem varintHeader_gt_iff {value : Nat} (h : value < 2 ^ 32) :
    BitMemoryWriter.varintHeader value > kVarintMax ↔ value > kVarintMax := by
  unfold BitMemoryWriter.varintHeader
  split
  · have := varintBytes_spec h ‹_›
    unfold varintBytes at this
    omega
  · omega

namespace BitMemoryWriter

theorem writeBits_bits (w : BitMemoryWriter) (value bitLength : Nat) :
    (w.writeBits value bitLength).bits = w.bits ++ ofNat value bitLength := rfl

theorem writeRegion_bits (w : BitMemoryWriter) (region : List Bool) :
    (w.writeRegion region).bits = w.bits ++ region := rfl

theorem foldl_writeBits_bits (f g : Nat → Nat) :
    ∀ (values : List Nat) (w : BitMemoryWriter),
      (values.foldl (fun w v => w.writeBits (f v) (g v)) w).bits =
        w.bits ++ (values.map fun v => ofNat (f v) (g v)).flatten
  | [], w => by simp
  | v :: vs, w => by
    rw [List.foldl_cons, foldl_writeBits_bits f g vs, writeBits_bits, List.map_cons,
      List.flatten_cons, List.append_assoc]

theorem foldl_writeLarge_bits :
    ∀ (values : List Nat) (w : BitMemoryWriter),
      (values.foldl (fun w v =>
        if v > kVarintMax then w.writeBits v (bitsToBytesRoundUp (minimumBitsToStore v) * kBitsPerByte)
        else w) w).bits =
        w.bits ++ (values.map fun v =>
          if v > kVarintMax then ofNat v (varintBytes v * kBitsPerByte) else []).flatten
  | [], w => by simp
  | v :: vs, w => by
    rw [List.foldl_cons, foldl_writeLarge_bits vs, List.map_cons, List.flatten_cons,
      ← List.append_assoc]
    congr 1
    split
    · rfl
    · simp

theorem writeInterleavedVarints_bits (w : BitMemoryWriter) (values : List Nat) :
    (w.writeInterleavedVarints values).bits = w.bits ++ interleavedVarintBits values := by
  unfold writeInterleavedVarints interleavedVarintBits
  dsimp only
  rw [foldl_writeLarge_bits, foldl_writeBits_bits, List.append_assoc]

theorem byteAlign_length_mod (w : BitMemoryWriter) :
    w.byteAlign.bits.length % kBitsPerByte = 0 := by
  unfold byteAlign kBitsPerByte
  rw [List.length_append, List.length_replicate]
  omega

theorem interleavedVarintBits_length (values : List Nat) :
    values.length * kVarintBits ≤ (interleavedVarintBits values).length := by
  unfold interleavedVarintBits
  rw [List.length_append]
  suffices h : (values.map fun v => ofNat (varintHeader v) kVarintBits).flatten.length =
      values.length * kVarintBits by omega
  induction values with
  | nil => rfl
  | cons v vs ih => simp [ih, Nat.add_mul, Nat.add_comm]

theorem writeVarint_bits (w : BitMemoryWriter) (value : Nat) :
    (w.writeVarint value).bits = w.bits ++ interleavedVarintBits [value] :=
  writeInterleavedVarints_bits w [value]

end BitMemoryWriter

/-- The packed first fields of a list of values below 16, read back one by one. -/
theorem extract_nibbles : ∀ xs : List Nat, (∀ x ∈ xs, x < 2 ^ kVarintBits) →
    (List.range xs.length).map (fun i =>
      toNat (xs.map fun x => ofNat x kVarintBits).flatten / 2 ^ (i * kVarintBits) %
        2 ^ kVarintBits) = xs
  | [], _ => rfl
  | x :: xs, h => by
    have hx : x < 2 ^ kVarintBits := h x List.mem_cons_self
    have ih := extract_nibbles xs fun y hy => h y (List.mem_cons_of_mem _ hy)
    have hpacked : toNat ((x :: xs).map fun x => ofNat x kVarintBits).flatten =
        x + 2 ^ kVarintBits * toNat (xs.map fun x => ofNat x kVarintBits).flatten := by
      rw [List.map_cons, List.flatten_cons, toNat_append, toNat_ofNat, length_ofNat,
        Nat.mod_eq_of_lt hx]
    rw [List.length_cons, List.range_succ_eq_map, List.map_cons, List.map_map, hpacked]
    congr 1
    · rw [Nat.zero_mul, Nat.pow_zero, Nat.div_one, Nat.add_mul_mod_self_left, Nat.mod_eq_of_lt hx]
    · conv_rhs => rw [← ih]
      refine List.map_congr_left fun i _ => ?_
      simp only [Function.comp, Nat.succ_eq_add_one, Nat.add_mul, Nat.one_mul, Nat.pow_add]
      rw [Nat.mul_comm (2 ^ (i * kVarintBits)), ← Nat.div_div_eq_div_mul,
        Nat.add_mul_div_left _ _ (by unfold kVarintBits; omega), Nat.div_eq_of_lt hx, Nat.zero_add]

namespace BitMemoryReader

theorem readRegion_fst (r : BitMemoryReader) (bitLength : Nat) :
    (r.readRegion bitLength).1 = slice r.data r.pos bitLength := rfl

theorem readRegion_snd (r : BitMemoryReader) (bitLength : Nat) :
    (r.readRegion bitLength).2 = { r with numberOfReadBits := r.numberOfReadBits + bitLength } := rfl

/-- The reader of `readLargeVarints` takes the large values where the writer put them. -/
theorem readLargeVarints_of_slice : ∀ (values : List Nat) (r : BitMemoryReader),
    (∀ v ∈ values, v < 2 ^ 32) →
    slice r.data r.pos (values.map fun v =>
        if v > kVarintMax then ofNat v (varintBytes v * kBitsPerByte) else []).flatten.length =
      (values.map fun v => if v > kVarintMax then ofNat v (varintBytes v * kBitsPerByte) else []).flatten →
    readLargeVarints (values.map BitMemoryWriter.varintHeader) r =
      (values, { r with numberOfReadBits := r.numberOfReadBits +
        (values.map fun v => if v > kVarintMax then ofNat v (varintBytes v * kBitsPerByte) else []).flatten.length })
  | [], r, _, _ => by simp [readLargeVarints]
  | v :: vs, r, hlt, hslice => by
    have hv := hlt v List.mem_cons_self
    set large : List Bool := if v > kVarintMax then ofNat v (varintBytes v * kBitsPerByte) else []
    set rest := (vs.map fun v => if v > kVarintMax then ofNat v (varintBytes v * kBitsPerByte) else []).flatten
    have hsplit : slice r.data r.pos (large.length + rest.length) = large ++ rest := by
      simpa [large, rest] using hslice
    rw [slice_add] at hsplit
    obtain ⟨hfirst, hsecond⟩ := List.append_inj hsplit (by simp)
    -- the value itself, read from its own bytes or from its first field
    have hvalue : (if BitMemoryWriter.varintHeader v > kVarintMax then
        r.readBits ((BitMemoryWriter.varintHeader v - kVarintMax) * kBitsPerByte)
        else (BitMemoryWriter.varintHeader v, r)) =
        (v, { r with numberOfReadBits := r.numberOfReadBits + large.length }) := by
      by_cases hl : v > kVarintMax
      · have hspec := varintBytes_spec hv hl
        have hbytes : BitMemoryWriter.varintHeader v - kVarintMax = varintBytes v := by
          unfold BitMemoryWriter.varintHeader varintBytes
          rw [if_pos hl]
          omega
        have hlarge : large = ofNat v (varintBytes v * kBitsPerByte) := if_pos hl
        rw [if_pos ((varintHeader_gt_iff hv).mpr hl), hbytes]
        simp only [readBits, readRegion_fst, readRegion_snd]
        rw [hlarge, length_ofNat] at hfirst ⊢
        rw [hfirst, toNat_ofNat, Nat.mod_eq_of_lt hspec.2.2]
      · have hlarge : large = [] := if_neg hl
        rw [if_neg (by rwa [varintHeader_gt_iff hv]), hlarge]
        unfold BitMemoryWriter.varintHeader
        simp [hl]
    rw [List.map_cons, readLargeVarints]
    simp only [hvalue]
    rw [readLargeVarints_of_slice vs _ (fun w hw => hlt w (List.mem_cons_of_mem _ hw))]
    · simp only [List.map_cons, List.flatten_cons, List.length_append]
      rw [Nat.add_assoc]
    · show slice r.data (r.start + (r.numberOfReadBits + large.length)) rest.length = rest
      unfold pos at hsecond
      rwa [Nat.add_assoc] at hsecond

/-- Interleaved varints read back as the values written. -/
theorem readInterleavedVarints_of_slice {values : List Nat} {r : BitMemoryReader}
    (hlt : ∀ v ∈ values, v < 2 ^ 32)
    (hslice : slice r.data r.pos (interleavedVarintBits values).length = interleavedVarintBits values) :
    r.readInterleavedVarints values.length =
      (values, { r with numberOfReadBits :=
        r.numberOfReadBits + (interleavedVarintBits values).length }) := by
  set headers := (values.map fun v => ofNat (BitMemoryWriter.varintHeader v) kVarintBits).flatten
  set large := (values.map fun v =>
    if v > kVarintMax then ofNat v (varintBytes v * kBitsPerByte) else []).flatten
  have hlen : headers.length = values.length * kVarintBits := by
    simp only [headers]
    clear hslice hlt
    induction values with
    | nil => rfl
    | cons v vs ih => simp [ih, Nat.add_mul, Nat.add_comm]
  have hsplit : slice r.data r.pos (headers.length + large.length) = headers ++ large := by
    simpa [interleavedVarintBits, headers, large] using hslice
  rw [slice_add] at hsplit
  obtain ⟨hfirst, hsecond⟩ := List.append_inj hsplit (by simp)
  have hnibbles := extract_nibbles (values.map BitMemoryWriter.varintHeader)
    (by simpa using fun v hv => varintHeader_lt (hlt v hv))
  simp only [List.map_map, Function.comp_def, List.length_map] at hnibbles
  unfold readInterleavedVarints
  simp only [readBits, readRegion_fst, readRegion_snd]
  rw [← hlen, hfirst, hnibbles, readLargeVarints_of_slice values _ hlt (by
    show slice r.data (r.start + (r.numberOfReadBits + headers.length)) large.length = large
    unfold pos at hsecond
    rwa [Nat.add_assoc] at hsecond)]
  simp [interleavedVarintBits, headers, Nat.add_assoc]

theorem readBits_lt (r : BitMemoryReader) (bitLength : Nat) :
    (r.readBits bitLength).1 < 2 ^ bitLength := by
  have h := toNat_lt (r.readRegion bitLength).1
  rwa [readRegion_fst, length_slice] at h

/-- The large values are read from at most four bytes, so they fit in `uint32_t`. -/
theorem readLargeVarints_lt : ∀ (xs : List Nat) (r : BitMemoryReader),
    (∀ x ∈ xs, x < 2 ^ kVarintBits) → ∀ v ∈ (readLargeVarints xs r).1, v < 2 ^ 32
  | [], r, _, v, hv => by simp [readLargeVarints] at hv
  | x :: xs, r, hxs, v, hv => by
    have hx := hxs x List.mem_cons_self
    unfold kVarintBits at hx
    simp only [readLargeVarints, List.mem_cons] at hv
    rcases hv with rfl | hv
    · split
      · refine Nat.lt_of_lt_of_le (readBits_lt r _) (Nat.pow_le_pow_right (by omega) ?_)
        unfold kVarintMax kBitsPerByte
        omega
      · omega
    · exact readLargeVarints_lt xs _ (fun y hy => hxs y (List.mem_cons_of_mem _ hy)) v hv

/-- Every value `ReadInterleavedVarints` returns fits in `uint32_t`. -/
theorem readInterleavedVarints_lt (r : BitMemoryReader) (n : Nat) :
    ∀ v ∈ (r.readInterleavedVarints n).1, v < 2 ^ 32 := by
  unfold readInterleavedVarints
  refine readLargeVarints_lt _ _ fun x hx => ?_
  obtain ⟨i, -, rfl⟩ := List.mem_map.mp hx
  exact Nat.mod_lt _ (Nat.two_pow_pos _)

theorem getD_readInterleavedVarints_lt (r : BitMemoryReader) (n k : Nat) :
    (r.readInterleavedVarints n).1.getD k 0 < 2 ^ 32 := by
  rw [List.getD_eq_getElem?_getD]
  cases h : (r.readInterleavedVarints n).1[k]? with
  | none => exact Nat.two_pow_pos _
  | some v => exact readInterleavedVarints_lt r n v (List.mem_of_getElem? h)

/-- A single varint reads back as the value written. -/
theorem readVarint_of_slice {value : Nat} {r : BitMemoryReader} (hv : value < 2 ^ 32)
    (hslice : slice r.data r.pos (interleavedVarintBits [value]).length =
      interleavedVarintBits [value]) :
    r.readVarint = (value, { r with numberOfReadBits :=
      r.numberOfReadBits + (interleavedVarintBits [value]).length }) := by
  set large : List Bool :=
    if value > kVarintMax then ofNat value (varintBytes value * kBitsPerByte) else []
  have hbits : interleavedVarintBits [value] =
      ofNat (BitMemoryWriter.varintHeader value) kVarintBits ++ large := by
    simp [interleavedVarintBits, large]
  rw [hbits, List.length_append, slice_add] at hslice
  obtain ⟨hfirst, hsecond⟩ := List.append_inj hslice (by simp)
  have hheader : toNat (slice r.data r.pos kVarintBits) = BitMemoryWriter.varintHeader value := by
    rw [length_ofNat] at hfirst
    rw [hfirst, toNat_ofNat, Nat.mod_eq_of_lt (varintHeader_lt hv)]
  unfold readVarint
  simp only [readBits, readRegion_fst, readRegion_snd, hheader]
  rw [hbits]
  by_cases hl : value > kVarintMax
  · have hspec := varintBytes_spec hv hl
    have hbytes : BitMemoryWriter.varintHeader value - kVarintMax = varintBytes value := by
      unfold BitMemoryWriter.varintHeader varintBytes
      rw [if_pos hl]
      omega
    have hlarge : large = ofNat value (varintBytes value * kBitsPerByte) := if_pos hl
    rw [if_neg (Nat.not_le.mpr ((varintHeader_gt_iff hv).mpr hl)), hbytes]
    rw [hlarge, length_ofNat, length_ofNat] at hsecond
    unfold pos at hsecond
    simp only [pos]
    rw [← Nat.add_assoc, hsecond, toNat_ofNat, Nat.mod_eq_of_lt hspec.2.2, hlarge]
    simp [Nat.add_assoc]
  · have hlarge : large = [] := if_neg hl
    have hle : BitMemoryWriter.varintHeader value ≤ kVarintMax := by
      exact Nat.not_lt.mp fun h => hl ((varintHeader_gt_iff hv).mp h)
    rw [if_pos hle, hlarge]
    unfold BitMemoryWriter.varintHeader
    simp [hl]

end BitMemoryReader

/-! ## Writing at a bit offset

`BitMemoryWriter(out, bit_offset)` keeps the first `bit_offset` bits of `out` and appends after
them: the writer whose bits are those `pre` bits. -/

/-- The bits a single varint takes: its first field, and the whole bytes of a large value. -/
theorem interleavedVarintBits_single_length (value : Nat) :
    (interleavedVarintBits [value]).length ≤
      kVarintBits + bitsToBytesRoundUp (minimumBitsToStore value) * kBitsPerByte := by
  by_cases hl : value > kVarintMax
  · simp [interleavedVarintBits, hl, varintBytes]
  · simp [interleavedVarintBits, hl]

theorem interleaved_varints_round_trip (pre : List Bool) (values : List Nat)
    (hv : ∀ v ∈ values, v < 2 ^ 32) :
    (let w := (BitMemoryWriter.mk pre).writeInterleavedVarints values;
      (BitMemoryReader.create w.bits pre.length).readInterleavedVarints values.length =
        (values, ⟨w.bits, pre.length, w.numberOfWrittenBits - pre.length⟩)) ∧
      ∀ v < 2 ^ 32, let w := (BitMemoryWriter.mk pre).writeVarint v
        (BitMemoryReader.create w.bits pre.length).readVarint =
            (v, ⟨w.bits, pre.length, w.numberOfWrittenBits - pre.length⟩) ∧
          w.numberOfWrittenBits - pre.length ≤
            kVarintBits + bitsToBytesRoundUp (minimumBitsToStore v) * kBitsPerByte := by
  refine ⟨?_, fun v hv' => ⟨?_, ?_⟩⟩
  · -- the reader starts where the writer did, on the bits it appended
    have hslice : slice (pre ++ interleavedVarintBits values) (pre.length + 0)
        (interleavedVarintBits values).length = interleavedVarintBits values := by
      rw [Nat.add_zero]
      exact slice_of_append_isPrefix (List.prefix_refl _)
    simp only [BitMemoryWriter.writeInterleavedVarints_bits, BitMemoryWriter.numberOfWrittenBits]
    rw [BitMemoryReader.readInterleavedVarints_of_slice hv hslice]
    simp [BitMemoryReader.create]
  · have hslice : slice (pre ++ interleavedVarintBits [v]) (pre.length + 0)
        (interleavedVarintBits [v]).length = interleavedVarintBits [v] := by
      rw [Nat.add_zero]
      exact slice_of_append_isPrefix (List.prefix_refl _)
    simp only [BitMemoryWriter.writeVarint_bits, BitMemoryWriter.numberOfWrittenBits]
    rw [BitMemoryReader.readVarint_of_slice hv' hslice]
    simp [BitMemoryReader.create]
  · simp only [BitMemoryWriter.writeVarint_bits, BitMemoryWriter.numberOfWrittenBits,
      List.length_append, Nat.add_sub_cancel_left]
    exact interleavedVarintBits_single_length v

/-- Three values, one of them large, written after five bits. -/
theorem interleaved_varints_round_trip_sample :
    (∀ v ∈ [3, 300, 0xFFFFFFFF], v < 2 ^ 32) ∧
      let w := (BitMemoryWriter.mk (List.replicate 5 true)).writeInterleavedVarints [3, 300, 0xFFFFFFFF]
      (BitMemoryReader.create w.bits 5).readInterleavedVarints 3 =
        ([3, 300, 0xFFFFFFFF], ⟨w.bits, 5, w.numberOfWrittenBits - 5⟩) := by
  have hv : ∀ v ∈ [3, 300, 0xFFFFFFFF], v < 2 ^ 32 := by decide
  exact ⟨hv, (interleaved_varints_round_trip (List.replicate 5 true) _ hv).1⟩

end Art
