import Art.Proofs.StackMapOrder
import Art.Lib.PartitionPoint

/-!
# Finding a stack map by native pc

`GetStackMapForNativePcOffset` is a `std::partition_point` over the rows for the first one that
is not a non-catch stack map below the packed pc, followed by a forward scan over the rows at the
pc.  It agrees with the linear search of all rows for the first one at the pc of kind Default or
OSR (`linearNativePcSearch`) on every table in the order `BeginStackMapEntry` checks
(`StackMapsOrdered`): catch stack maps last, the others sorted by packed pc.  The predicate of
the binary search is then a partition (`partitioned_of_ordered`), no row before its result is at
the pc, and once the scan meets a row at another pc no later row is a match: a Default or OSR row
after it would be at least as high, and the rows between share the pc.
-/

namespace Art

open Word32

namespace CodeInfo

variable (c : CodeInfo) (pc : Nat) (isa : InstructionSet)

/-- A row the lookup may return: at `pc`, of kind Default or OSR. -/
def nativePcMatch (row : Nat) : Bool :=
  c.getNativePcOffset row isa == pc &&
    (c.getKind row == StackMapKind.default.toUInt32 || c.getKind row == StackMapKind.osr.toUInt32)

/-- The first row in table order that the lookup may return. -/
def linearNativePcSearch : Option Nat :=
  (List.range c.getNumberOfStackMaps).find? (c.nativePcMatch pc isa)

/-- The order of the rows that `BeginStackMapEntry` checks, read back from the table: a catch stack
map is followed only by catch stack maps, the others are sorted by packed native pc, and a packed
pc times the instruction alignment does not wrap in `uint32_t`, the type of `native_pc_offset`. -/
structure StackMapsOrdered : Prop where
  catch_last : ∀ i j, i ≤ j → j < c.getNumberOfStackMaps →
    c.getKind i = StackMapKind.catch.toUInt32 → c.getKind j = StackMapKind.catch.toUInt32
  sorted : ∀ i j, i ≤ j → j < c.getNumberOfStackMaps →
    c.getKind i ≠ StackMapKind.catch.toUInt32 → c.getKind j ≠ StackMapKind.catch.toUInt32 →
      c.getPackedNativePc i ≤ c.getPackedNativePc j
  no_wrap : ∀ i < c.getNumberOfStackMaps,
    c.getPackedNativePc i * getInstructionSetInstructionAlignment isa < 2 ^ 32

theorem alignment_pos : 0 < getInstructionSetInstructionAlignment isa := by
  cases isa <;> decide

theorem kind_ne_catch_of_match {row : Nat} (h : c.nativePcMatch pc isa row = true) :
    c.getKind row ≠ StackMapKind.catch.toUInt32 := by
  unfold nativePcMatch at h
  intro hk
  rw [hk] at h
  simp [StackMapKind.toUInt32] at h

variable {c isa}

theorem getNativePcOffset_eq (h : c.StackMapsOrdered isa) {row : Nat}
    (hrow : row < c.getNumberOfStackMaps) :
    c.getNativePcOffset row isa = c.getPackedNativePc row * getInstructionSetInstructionAlignment isa :=
  u32_of_lt (h.no_wrap row hrow)

/-- The predicate of the binary search holds on a prefix of the rows. -/
theorem partitioned_of_ordered (h : c.StackMapsOrdered isa) (packedPc : Nat) :
    Search.Partitioned (fun row => decide (c.getPackedNativePc row < packedPc) &&
      c.getKind row != StackMapKind.catch.toUInt32) 0 c.getNumberOfStackMaps := by
  intro i j _ hij hj hpj
  simp only [Bool.and_eq_true, decide_eq_true_eq, bne_iff_ne, ne_eq] at hpj ⊢
  obtain ⟨hlt, hkj⟩ := hpj
  -- a catch stack map before `j` would make `j` one
  have hki : c.getKind i ≠ StackMapKind.catch.toUInt32 := fun hki =>
    hkj (h.catch_last i j hij (by omega) hki)
  exact ⟨Nat.lt_of_le_of_lt (h.sorted i j hij (by omega) hki hkj) hlt, hki⟩

/-- The scan returns the first match, as long as no match follows a row at another pc. -/
theorem nativePcScan_eq_find {it m : Nat}
    (hstop : ∀ k j, it ≤ k → k < j → j < it + m → c.getNativePcOffset k isa ≠ pc →
      c.nativePcMatch pc isa j = false) :
    c.nativePcScan pc isa it m = (List.range' it m).find? (c.nativePcMatch pc isa) := by
  induction m generalizing it with
  | zero => rfl
  | succ m ih =>
    rw [nativePcScan, List.range'_succ, List.find?_cons]
    by_cases hpc : c.getNativePcOffset it isa = pc
    · rw [if_pos hpc]
      by_cases hkind : c.getKind it = StackMapKind.default.toUInt32 ∨
          c.getKind it = StackMapKind.osr.toUInt32
      · have hmatch : c.nativePcMatch pc isa it = true := by
          unfold nativePcMatch
          rcases hkind with hk | hk <;> simp [hpc, hk]
        rw [if_pos hkind, hmatch]
      · have hmatch : c.nativePcMatch pc isa it = false := by
          unfold nativePcMatch
          simp only [not_or] at hkind
          simp [hkind.1, hkind.2]
        rw [if_neg hkind, hmatch, ih fun k j hk hkj hj => hstop k j (by omega) hkj (by omega)]
    · -- the scan stops, and so would the search: no later row is a match
      rw [if_neg hpc]
      have hmatch : c.nativePcMatch pc isa it = false := by
        unfold nativePcMatch
        simp [hpc]
      rw [hmatch, eq_comm, List.find?_eq_none]
      intro j hj
      rw [List.mem_range'_1] at hj
      exact Bool.eq_false_iff.1 (hstop it j (Nat.le_refl _) (by omega) (by omega) hpc)

/-- A row below the packed `pc` is not at `pc`. -/
theorem nativePcMatch_eq_false_of_lt (h : c.StackMapsOrdered isa) {row : Nat}
    (hrow : row < c.getNumberOfStackMaps)
    (hlt : c.getPackedNativePc row < StackMap.packNativePc (u32 pc) isa) :
    c.nativePcMatch pc isa row = false := by
  have hmul := Nat.mul_lt_mul_of_pos_right hlt (alignment_pos isa)
  -- packing rounds down, and `u32` only lowers `pc`
  have hpacked : StackMap.packNativePc (u32 pc) isa * getInstructionSetInstructionAlignment isa ≤ pc :=
    Nat.le_trans (Nat.div_mul_le_self _ _) (Nat.mod_le _ _)
  unfold nativePcMatch
  rw [getNativePcOffset_eq h hrow, Bool.and_eq_false_iff, beq_eq_false_iff_ne]
  exact Or.inl (by omega)

/-- A match is at the packed `pc`. -/
theorem packed_eq_of_match (h : c.StackMapsOrdered isa) {row : Nat}
    (hrow : row < c.getNumberOfStackMaps) (hmatch : c.nativePcMatch pc isa row = true) :
    c.getPackedNativePc row = StackMap.packNativePc (u32 pc) isa := by
  unfold nativePcMatch at hmatch
  rw [Bool.and_eq_true, beq_iff_eq, getNativePcOffset_eq h hrow] at hmatch
  have hwrap := h.no_wrap row hrow
  unfold StackMap.packNativePc
  rw [u32_of_lt (by omega), ← hmatch.1, Nat.mul_div_cancel _ (alignment_pos isa)]

/-- The binary search with the forward scan is the linear search, on rows in the order the
stream checks. -/
theorem getStackMapForNativePcOffset_eq (h : c.StackMapsOrdered isa) :
    c.getStackMapForNativePcOffset pc isa = c.linearNativePcSearch pc isa := by
  unfold getStackMapForNativePcOffset linearNativePcSearch
  obtain ⟨-, hrn, hbefore, hat⟩ := Search.partitionPoint_spec (partitioned_of_ordered h
    (StackMap.packNativePc (u32 pc) isa))
  rw [Nat.zero_add] at hrn hat
  set n := c.getNumberOfStackMaps
  set r := Search.partitionPoint _ 0 n
  -- past a row at another pc there is no match: it would be at the packed `pc`, and so would
  -- every row from `r` to it
  have hstop : ∀ k j, r ≤ k → k < j → j < r + (n - r) → c.getNativePcOffset k isa ≠ pc →
      c.nativePcMatch pc isa j = false := by
    intro k j hk hkj hj hpck
    rw [← Bool.not_eq_true]
    intro hmatch
    have hkindj := kind_ne_catch_of_match c pc isa hmatch
    have hkindk : c.getKind k ≠ StackMapKind.catch.toUInt32 := fun hkk =>
      hkindj (h.catch_last k j (Nat.le_of_lt hkj) (by omega) hkk)
    have hkindr : c.getKind r ≠ StackMapKind.catch.toUInt32 := fun hkr =>
      hkindk (h.catch_last r k hk (by omega) hkr)
    have hr := hat (by omega)
    simp only [Bool.and_eq_false_iff, decide_eq_false_iff_not, bne_eq_false_iff_eq] at hr
    have hrk := h.sorted r k hk (by omega) hkindr hkindk
    have hkj' := h.sorted k j (Nat.le_of_lt hkj) (by omega) hkindk hkindj
    have hpackedj := packed_eq_of_match pc h (show j < n by omega) hmatch
    have hpackedk : c.getPackedNativePc k = c.getPackedNativePc j := by
      rcases hr with hr | hr
      · omega
      · exact absurd hr hkindr
    apply hpck
    unfold nativePcMatch at hmatch
    rw [Bool.and_eq_true, beq_iff_eq] at hmatch
    rw [getNativePcOffset_eq h (show k < n by omega), hpackedk, ← getNativePcOffset_eq h (show j < n by omega),
      hmatch.1]
  -- no row before `r` matches: each is a non-catch stack map below the packed `pc`
  have hnoneBefore : (List.range' 0 r).find? (c.nativePcMatch pc isa) = none := by
    rw [List.find?_eq_none]
    intro i hi
    rw [List.mem_range'_1] at hi
    have hp := hbefore i (Nat.zero_le _) (by omega)
    rw [Bool.and_eq_true, decide_eq_true_eq] at hp
    rw [nativePcMatch_eq_false_of_lt pc h (show i < n by omega) hp.1]
    exact Bool.false_ne_true
  have hsplit : List.range n = List.range' 0 r ++ List.range' r (n - r) := by
    have happend := @List.range'_append_1 0 r (n - r)
    rw [Nat.zero_add, Nat.add_sub_cancel' hrn] at happend
    rw [List.range_eq_range', happend]
  rw [nativePcScan_eq_find pc hstop, hsplit, List.find?_append, hnoneBefore, Option.none_or]

/-! ## Code infos a stream writes -/

section Stream

open StackMapStream

variable {isa : InstructionSet}

/-- A stream whose rows are in order writes a code info whose rows are in order. -/
theorem stackMapsOrdered_of_encode {s : StackMapStream} {bits : List Bool}
    (hinv : OrderInv isa s) (henc : s.encode = some bits)
    (hheader : ∀ v ∈ [s.codeSize, s.packedFrameSize, s.coreSpillMask, s.fpSpillMask,
      s.numDexRegisters], v < 2 ^ 32) (hrows : s.stackMaps.rows.length ≤ 2 ^ 24) :
    (decode bits 0).1.StackMapsOrdered isa := by
  obtain ⟨hcount, hcell⟩ := decode_stackMaps_of_encode henc hheader hrows
  set c := (decode bits 0).1
  set rows := s.stackMaps.rows
  have hfits : ∀ i (hi : i < rows.length), KeyFits isa (rowKey rows[i]) := fun i hi =>
    hinv.fits _ (List.mem_map_of_mem (List.getElem_mem hi))
  have hkey : ∀ i (hi : i < rows.length),
      c.getKind i = (rowKey rows[i]).1 ∧ c.getPackedNativePc i = (rowKey rows[i]).2 := by
    intro i hi
    obtain ⟨hkind, hpacked⟩ := hfits i hi
    have hle := Nat.le_mul_of_pos_right (rows[i].getD StackMap.kPackedNativePc 0) (alignment_pos isa)
    unfold rowKey at hkind hpacked ⊢
    unfold getKind getPackedNativePc
    rw [hcell i hi _ (by decide), hcell i hi _ (by decide), Nat.mod_eq_of_lt hkind,
      Nat.mod_eq_of_lt (Nat.lt_of_le_of_lt hle hpacked)]
    exact ⟨rfl, rfl⟩
  have hpair : ∀ i j (hij : i < j) (hj : j < rows.length),
      KeyOrder (rowKey rows[i]) (rowKey rows[j]) := by
    intro i j hij hj
    have := List.pairwise_iff_getElem.mp hinv.sorted i j (by simpa using Nat.lt_trans hij hj)
      (by simpa using hj) hij
    simpa using this
  refine ⟨fun i j hij hj hcat => ?_, fun i j hij hj hki hkj => ?_, fun i hi => ?_⟩
  · rw [hcount] at hj
    rcases Nat.lt_or_eq_of_le hij with hlt | rfl
    · rw [(hkey i (Nat.lt_trans hlt hj)).1] at hcat
      rw [(hkey j hj).1]
      exact (hpair i j hlt hj).1 hcat
    · exact hcat
  · rw [hcount] at hj
    rcases Nat.lt_or_eq_of_le hij with hlt | rfl
    · obtain ⟨hki', hpi⟩ := hkey i (Nat.lt_trans hlt hj)
      obtain ⟨hkj', hpj⟩ := hkey j hj
      rw [hki'] at hki
      rw [hkj'] at hkj
      rw [hpi, hpj]
      exact (hpair i j hlt hj).2 hki hkj
    · exact Nat.le_refl _
  · rw [hcount] at hi
    rw [(hkey i hi).2]
    exact (hfits i hi).2

/-- Every code info the stream writes has its rows in order, over any calls whose `uint32_t`
arguments are in range, at most `2 ^ 24` of them. -/
theorem stackMapsOrdered_of_encodeStackMaps {frameSizeInBytes coreSpillMask fpSpillMask
    numDexRegisters : Nat} {baseline : Bool} {calls : List StackMapCall} {codeSize : Nat}
    {bits : List Bool} (hregs : numDexRegisters < 2 ^ 32)
    (hpcs : ∀ call ∈ calls, call.nativePcFits = true) (hcalls : calls.length ≤ 2 ^ 24)
    (henc : encodeStackMaps isa frameSizeInBytes coreSpillMask fpSpillMask numDexRegisters baseline
      calls codeSize = some bits) :
    (decode bits 0).1.StackMapsOrdered isa := by
  unfold encodeStackMaps at henc
  simp only [Option.bind_eq_bind, Option.bind_eq_some_iff] at henc
  obtain ⟨s1, h1, s2, h2, s3, h3, h4⟩ := henc
  obtain ⟨hinv1, hfields1, hempty1⟩ := beginMethod_frame h1
  obtain ⟨hinv2, hfields2⟩ := callAll_orderInv calls hpcs (congrArg Prod.fst hfields1) hinv1 h2
  obtain ⟨hfields3, hview3, hcode3⟩ := endMethod_frame h3
  -- one row at most for each call, and `EndMethod` keeps the rows
  have hrows : s3.stackMaps.rows.length ≤ 2 ^ 24 := by
    have h₂ := callAll_rows_length calls h2
    have h₃ : (s3.stackMaps.rows.map rowKey).length = (s2.stackMaps.rows.map rowKey).length :=
      congrArg List.length (congrArg Prod.fst hview3)
    rw [hempty1, List.length_nil] at h₂
    simp only [List.length_map] at h₃
    omega
  refine stackMapsOrdered_of_encode (hinv2.of_orderView hview3) h4 ?_ hrows
  have hfields := hfields3.trans (hfields2.trans hfields1)
  simp only [methodFields, Prod.mk.injEq] at hfields
  obtain ⟨-, hframe, hcore, hfp, hregs3⟩ := hfields
  simp only [List.forall_mem_cons, List.not_mem_nil, IsEmpty.forall_iff, implies_true, and_true]
  rw [hcode3, hframe, hcore, hfp, hregs3]
  exact ⟨u32_lt _, u32_lt _, u32_lt _, u32_lt _, hregs⟩

/-- A Default and a Debug stack map at one pc, and a catch stack map after them. -/
def sharedPcStackMaps : List StackMapCall :=
  [.beginStackMapEntry 0 8 0 none .default false, .endStackMapEntry,
    .beginStackMapEntry 1 8 0 none .debug false, .endStackMapEntry,
    .beginStackMapEntry 2 4 0 none .catch false, .endStackMapEntry]

end Stream

end CodeInfo

end Art
