import Mathlib
import Art.Compiler.StackMapStream
import Art.Proofs.Dedupe

/-!
# The order of the stack maps a stream writes

`BeginStackMapEntry` checks each new stack map against the last one (`pcOrderOk`): after a catch
stack map only catch stack maps follow, and the others come in order of packed native pc.  The
check compares neighbours only, but the relation it checks (`KeyOrder`, on the kind and packed pc
of a row) is transitive, so every pair of rows is in order (`OrderInv`), over any sequence of
calls (`callAll_orderInv`).  The other calls and `EndMethod` leave the kind and packed pc of every
row, and of the row being built, as they are.

`Encode` writes the stack-map table first, after the header; a code info decoded from its output
has the stream's rows, each value in `uint32_t` (`decode_stackMaps_of_encode`), as long as the
header fields fit their `uint32_t` type and the `uint32_t` cell offsets reach every row: each call
adds at most one row (`callAll_rows_length`), of at most 256 bits.
-/

namespace Art

open BitList Word32

/-- `true` unless the call is a `BeginStackMapEntry` whose `uint32_t` native pc is out of range. -/
def StackMapCall.nativePcFits : StackMapCall → Bool
  | .beginStackMapEntry _ nativePcOffset _ _ _ _ => decide (nativePcOffset < 2 ^ 32)
  | _ => true

theorem StackMapKind.toUInt32_lt (kind : StackMapKind) : kind.toUInt32 < 2 ^ 32 := by
  cases kind <;> decide

namespace StackMapStream

/-! ## The order of the rows -/

/-- The kind and packed native pc of a stack-map row. -/
def rowKey (row : List Nat) : Nat × Nat :=
  (row.getD StackMap.kKind 0, row.getD StackMap.kPackedNativePc 0)

/-- The order `BeginStackMapEntry` keeps between an earlier row and a later one. -/
def KeyOrder (a b : Nat × Nat) : Prop :=
  (a.1 = StackMapKind.catch.toUInt32 → b.1 = StackMapKind.catch.toUInt32) ∧
    (a.1 ≠ StackMapKind.catch.toUInt32 → b.1 ≠ StackMapKind.catch.toUInt32 → a.2 ≤ b.2)

theorem KeyOrder.trans {a b c : Nat × Nat} (hab : KeyOrder a b) (hbc : KeyOrder b c) :
    KeyOrder a c := by
  refine ⟨fun ha => hbc.1 (hab.1 ha), fun ha hc => ?_⟩
  -- `b` is not a catch stack map either, since `c` would then be one
  have hb : b.1 ≠ StackMapKind.catch.toUInt32 := fun hb => hc (hbc.1 hb)
  exact Nat.le_trans (hab.2 ha hb) (hbc.2 hb hc)

/-- A row the code info reads back as written: its kind fits in `uint32_t`, and its packed pc
unpacks without wrapping. -/
def KeyFits (isa : InstructionSet) (key : Nat × Nat) : Prop :=
  key.1 < 2 ^ 32 ∧ key.2 * getInstructionSetInstructionAlignment isa < 2 ^ 32

theorem rowKey_set {k : Nat} (hk : 2 ≤ k) (row : List Nat) (v : Nat) :
    rowKey (row.set k v) = rowKey row := by
  unfold rowKey StackMap.kKind StackMap.kPackedNativePc
  simp only [List.getD_eq_getElem?_getD, List.getElem?_set]
  rw [if_neg (by omega), if_neg (by omega)]

theorem rowKey_entry (kind packedNativePc dexPc : Nat) :
    rowKey ((((defaultEntry 8).set StackMap.kKind kind).set StackMap.kPackedNativePc
      packedNativePc).set StackMap.kDexPc dexPc) = (kind, packedNativePc) := by
  rw [rowKey_set (by decide)]
  simp [rowKey, defaultEntry, StackMap.kKind, StackMap.kPackedNativePc]

/-- Replacing a row by one of the same key keeps the keys. -/
theorem map_rowKey_set {rows : List (List Nat)} {i : Nat} {row : List Nat}
    (h : rowKey row = rowKey (rows.getD i [])) : (rows.set i row).map rowKey = rows.map rowKey := by
  rw [List.map_set]
  by_cases hi : i < rows.length
  · rw [h, List.getD_eq_getElem _ _ hi, ← List.getElem_map rowKey]
    exact List.set_getElem_self (by simpa using hi)
  · exact List.set_eq_of_length_le (by simpa using hi)

/-- What the stream keeps of the order of its rows: they are in order, each is read back as
written, and so is the row being built, which is in order after all of them. -/
structure OrderInv (isa : InstructionSet) (s : StackMapStream) : Prop where
  sorted : (s.stackMaps.rows.map rowKey).Pairwise KeyOrder
  fits : ∀ key ∈ s.stackMaps.rows.map rowKey, KeyFits isa key
  current : s.inStackMap = true →
    (∀ key ∈ s.stackMaps.rows.map rowKey, KeyOrder key (rowKey s.currentStackMap)) ∧
      KeyFits isa (rowKey s.currentStackMap)

/-- The part of the stream the order depends on. -/
def orderView (s : StackMapStream) : List (Nat × Nat) × Bool × (Nat × Nat) :=
  (s.stackMaps.rows.map rowKey, s.inStackMap, rowKey s.currentStackMap)

/-- The fields that only `BeginMethod` and `EndMethod` write. -/
def methodFields (s : StackMapStream) : InstructionSet × Nat × Nat × Nat × Nat :=
  (s.instructionSet, s.packedFrameSize, s.coreSpillMask, s.fpSpillMask, s.numDexRegisters)

theorem OrderInv.of_orderView {isa : InstructionSet} {s s' : StackMapStream}
    (hinv : OrderInv isa s) (h : s'.orderView = s.orderView) : OrderInv isa s' := by
  unfold orderView at h
  simp only [Prod.mk.injEq] at h
  obtain ⟨hrows, hin, hcur⟩ := h
  exact ⟨hrows ▸ hinv.sorted, hrows ▸ hinv.fits, fun hs => hrows ▸ hcur ▸ hinv.current (hin ▸ hs)⟩

theorem orderInv_create (isa : InstructionSet) : OrderInv isa (create isa) :=
  ⟨List.Pairwise.nil, fun _ h => absurd h List.not_mem_nil, fun h => absurd h Bool.false_ne_true⟩

/-! ## One call

`storeDexRegister` and `createDexRegisterMap` write the dex register tables and two columns of
the row being built, neither of them its kind or packed pc. -/

theorem storeDexRegister_frame (s : StackMapStream) (i : Nat) :
    ((s.storeDexRegister i).methodFields, (s.storeDexRegister i).stackMaps,
        (s.storeDexRegister i).inStackMap, (s.storeDexRegister i).currentStackMap) =
      (s.methodFields, s.stackMaps, s.inStackMap, s.currentStackMap) := by
  unfold storeDexRegister
  dsimp only
  split_ifs <;> rfl

/-- A fold of `storeDexRegister` keeps what each of its steps keeps. -/
theorem foldl_storeDexRegister {α : Type} (p : StackMapStream → α)
    (hp : ∀ s i, p (s.storeDexRegister i) = p s) :
    ∀ (regs : List Nat) (s : StackMapStream), p (regs.foldl storeDexRegister s) = p s
  | [], _ => rfl
  | i :: regs, s => by rw [List.foldl_cons, foldl_storeDexRegister p hp regs, hp]

theorem createDexRegisterMap_frame (s : StackMapStream) :
    s.createDexRegisterMap.methodFields = s.methodFields ∧
      s.createDexRegisterMap.stackMaps = s.stackMaps ∧
      s.createDexRegisterMap.inStackMap = s.inStackMap ∧
      rowKey s.createDexRegisterMap.currentStackMap = rowKey s.currentStackMap := by
  unfold createDexRegisterMap
  dsimp only
  -- the registers are stored first, which keeps all four
  generalize hfold : List.foldl storeDexRegister _ (List.range _) = t
  have ht : (t.methodFields, t.stackMaps, t.inStackMap, t.currentStackMap) =
      (s.methodFields, s.stackMaps, s.inStackMap, s.currentStackMap) := by
    rw [← hfold]
    exact foldl_storeDexRegister
      (fun s => (s.methodFields, s.stackMaps, s.inStackMap, s.currentStackMap))
      storeDexRegister_frame _ _
  simp only [Prod.mk.injEq] at ht
  obtain ⟨hfields, hmaps, hin, hcur⟩ := ht
  split_ifs
  all_goals
    refine ⟨hfields, hmaps, hin, ?_⟩
    simp only [rowKey_set (show 2 ≤ StackMap.kDexRegisterMaskIndex by decide),
      rowKey_set (show 2 ≤ StackMap.kDexRegisterMapIndex by decide), hcur]

/-- `EndStackMapEntry` creates the dex register map only when there are registers. -/
theorem ite_createDexRegisterMap_frame (c : Prop) [Decidable c] (s : StackMapStream) :
    (if c then s.createDexRegisterMap else s).methodFields = s.methodFields ∧
      (if c then s.createDexRegisterMap else s).stackMaps = s.stackMaps ∧
      (if c then s.createDexRegisterMap else s).inStackMap = s.inStackMap ∧
      rowKey (if c then s.createDexRegisterMap else s).currentStackMap = rowKey s.currentStackMap := by
  split_ifs
  · exact createDexRegisterMap_frame s
  · exact ⟨rfl, rfl, rfl, rfl⟩

/-- The last step of `EndStackMapEntry`: the row being built is appended. -/
theorem add_currentStackMap {s t : StackMapStream} (hfields : t.methodFields = s.methodFields)
    (hmaps : t.stackMaps = s.stackMaps) (hin : t.inStackMap = false)
    (hcur : rowKey t.currentStackMap = rowKey s.currentStackMap) :
    { t with stackMaps := t.stackMaps.add t.currentStackMap }.methodFields = s.methodFields ∧
      { t with stackMaps := t.stackMaps.add t.currentStackMap }.stackMaps.rows.map rowKey =
        s.stackMaps.rows.map rowKey ++ [rowKey s.currentStackMap] ∧
      { t with stackMaps := t.stackMaps.add t.currentStackMap }.inStackMap = false := by
  refine ⟨hfields, ?_, hin⟩
  simp only [BitTableBuilder.add, List.map_append, List.map_cons, List.map_nil, hmaps, hcur]

/-- `EndStackMapEntry` appends the row being built, with its kind and packed pc. -/
theorem endStackMapEntry_frame {s s' : StackMapStream} (h : s.endStackMapEntry = some s') :
    s.inStackMap = true ∧ s'.methodFields = s.methodFields ∧
      s'.stackMaps.rows.map rowKey = s.stackMaps.rows.map rowKey ++ [rowKey s.currentStackMap] ∧
      s'.inStackMap = false := by
  unfold endStackMapEntry at h
  split_ifs at h with hcheck
  cases h
  have hin : s.inStackMap = true := by
    simp only [Bool.or_eq_true, Bool.not_eq_true', not_or] at hcheck
    exact Bool.not_eq_false _ |>.mp hcheck.1
  -- the inline infos, and then the dex register map, write other columns of the row
  refine ⟨hin, add_currentStackMap ?_ ?_ ?_ ?_⟩
  all_goals
    simp only [ite_createDexRegisterMap_frame]
    split
  -- only the inline infos' branch writes the row being built, in another column
  all_goals first | rfl | exact rowKey_set (by decide) _ _

/-- `BeginStackMapEntry` passed its order check, and starts a row of the given kind and packed pc. -/
theorem beginStackMapEntry_frame {s s' : StackMapStream} {dexPc nativePcOffset registerMask : Nat}
    {stackMask : Option (List Bool)} {kind : StackMapKind} {needsVregInfo : Bool}
    (h : s.beginStackMapEntry dexPc nativePcOffset registerMask stackMask kind needsVregInfo = some s') :
    s.pcOrderOk kind (StackMap.packNativePc nativePcOffset s.instructionSet) = true ∧
      s'.methodFields = s.methodFields ∧
      s'.orderView = (s.stackMaps.rows.map rowKey, true,
        (kind.toUInt32, StackMap.packNativePc nativePcOffset s.instructionSet)) := by
  unfold beginStackMapEntry at h
  dsimp only at h
  split_ifs at h with hcheck
  -- with or without a register mask, which goes into another column
  all_goals
    cases h
    refine ⟨?_, rfl, ?_⟩
    · revert hcheck
      cases s.pcOrderOk kind (StackMap.packNativePc nativePcOffset s.instructionSet) <;> simp
    · unfold orderView
      simp only [rowKey_set (show 2 ≤ StackMap.kRegisterMaskIndex by decide), rowKey_entry]

/-- What `pcOrderOk` checks against the last row holds against every row, since the rows are in
order and the order is transitive. -/
theorem keyOrder_of_pcOrderOk {s : StackMapStream} {kind : StackMapKind} {packedNativePc : Nat}
    (hsorted : (s.stackMaps.rows.map rowKey).Pairwise KeyOrder)
    (h : s.pcOrderOk kind packedNativePc = true) :
    ∀ key ∈ s.stackMaps.rows.map rowKey, KeyOrder key (kind.toUInt32, packedNativePc) := by
  unfold pcOrderOk at h
  rcases hlast : s.stackMaps.rows.getLast? with _ | last
  · rw [List.getLast?_eq_none_iff] at hlast
    simp [hlast]
  rw [hlast] at h
  dsimp only at h
  have hnext : KeyOrder (rowKey last) (kind.toUInt32, packedNativePc) := by
    unfold KeyOrder rowKey
    dsimp only
    split_ifs at h with hcatch hkind
    · -- after a catch stack map, only a catch stack map
      rw [beq_iff_eq] at h
      subst h
      exact ⟨fun _ => rfl, fun hne => absurd hcatch hne⟩
    · exact ⟨fun hc => absurd hc hcatch, fun _ _ => of_decide_eq_true h⟩
    · -- a catch stack map may follow any other
      have hk : kind = .catch := by simpa using hkind
      exact ⟨fun hc => absurd hc hcatch, fun _ hne => absurd (hk ▸ rfl) hne⟩
  obtain ⟨init, hrows⟩ := List.getLast?_eq_some_iff.mp hlast
  rw [hrows, List.map_append, List.map_singleton, List.pairwise_append] at hsorted
  intro key hkey
  rw [hrows, List.map_append, List.map_singleton, List.mem_append, List.mem_singleton] at hkey
  rcases hkey with hkey | rfl
  · exact (hsorted.2.2 key hkey (rowKey last) (List.mem_singleton_self _)).trans hnext
  · exact hnext

theorem call_methodFields {s s' : StackMapStream} {c : StackMapCall} (h : s.call c = some s') :
    s'.methodFields = s.methodFields := by
  cases c with
  | beginStackMapEntry => exact (beginStackMapEntry_frame h).2.1
  | endStackMapEntry => exact (endStackMapEntry_frame h).2.1
  | addDexRegisterEntry =>
    cases h
    rfl
  | beginInlineInfoEntry =>
    unfold call beginInlineInfoEntry at h
    dsimp only at h
    split_ifs at h
    cases h
    rfl
  | endInlineInfoEntry =>
    unfold call endInlineInfoEntry at h
    split_ifs at h
    cases h
    rfl

/-- The step lemma: every call keeps the order of the rows. -/
theorem call_orderInv {isa : InstructionSet} {s s' : StackMapStream} {c : StackMapCall}
    (hfit : c.nativePcFits = true) (hisa : s.instructionSet = isa) (hinv : OrderInv isa s)
    (h : s.call c = some s') : OrderInv isa s' := by
  cases c with
  | beginStackMapEntry dexPc nativePcOffset registerMask stackMask kind needsVregInfo =>
    obtain ⟨hok, -, hview⟩ := beginStackMapEntry_frame h
    unfold orderView at hview
    simp only [Prod.mk.injEq] at hview
    obtain ⟨hrows, -, hcur⟩ := hview
    -- the packed pc, times the alignment, is at most the `uint32_t` native pc
    have hpc : nativePcOffset < 2 ^ 32 := of_decide_eq_true hfit
    have hpacked : StackMap.packNativePc nativePcOffset s.instructionSet *
        getInstructionSetInstructionAlignment isa ≤ nativePcOffset := by
      rw [← hisa]
      exact Nat.div_mul_le_self _ _
    refine ⟨hrows ▸ hinv.sorted, hrows ▸ hinv.fits, fun _ => ⟨?_, ?_⟩⟩
    · rw [hrows, hcur]
      exact keyOrder_of_pcOrderOk hinv.sorted hok
    · rw [hcur]
      exact ⟨kind.toUInt32_lt, Nat.lt_of_le_of_lt hpacked hpc⟩
  | endStackMapEntry =>
    obtain ⟨hin, -, hrows, hout⟩ := endStackMapEntry_frame h
    obtain ⟨hafter, hfits⟩ := hinv.current hin
    refine ⟨?_, ?_, fun h' => absurd (hout ▸ h') Bool.false_ne_true⟩
    · rw [hrows, List.pairwise_append]
      refine ⟨hinv.sorted, List.pairwise_singleton _ _, fun a ha b hb => ?_⟩
      rw [List.mem_singleton] at hb
      exact hb ▸ hafter a ha
    · rw [hrows]
      intro key hkey
      rcases List.mem_append.mp hkey with hkey | hkey
      · exact hinv.fits key hkey
      · exact (List.mem_singleton.mp hkey) ▸ hfits
  | addDexRegisterEntry =>
    cases h
    exact hinv.of_orderView rfl
  | beginInlineInfoEntry =>
    unfold call beginInlineInfoEntry at h
    dsimp only at h
    split_ifs at h
    cases h
    exact hinv.of_orderView rfl
  | endInlineInfoEntry =>
    unfold call endInlineInfoEntry at h
    split_ifs at h
    cases h
    exact hinv.of_orderView rfl

/-- Only `EndStackMapEntry` adds a row, and it adds one. -/
theorem call_rows_length {s s' : StackMapStream} {c : StackMapCall} (h : s.call c = some s') :
    s'.stackMaps.rows.length ≤ s.stackMaps.rows.length + 1 := by
  suffices hkeys : (s'.stackMaps.rows.map rowKey).length ≤ (s.stackMaps.rows.map rowKey).length + 1 by
    simpa only [List.length_map] using hkeys
  cases c with
  | beginStackMapEntry =>
    have hview := (beginStackMapEntry_frame h).2.2
    unfold orderView at hview
    rw [(Prod.mk.inj hview).1]
    exact Nat.le_succ _
  | endStackMapEntry =>
    rw [(endStackMapEntry_frame h).2.2.1, List.length_append, List.length_singleton]
  | addDexRegisterEntry =>
    cases h
    exact Nat.le_succ _
  | beginInlineInfoEntry =>
    unfold call beginInlineInfoEntry at h
    dsimp only at h
    split_ifs at h
    cases h
    exact Nat.le_succ _
  | endInlineInfoEntry =>
    unfold call endInlineInfoEntry at h
    split_ifs at h
    cases h
    exact Nat.le_succ _

/-- Each call adds at most one row. -/
theorem callAll_rows_length :
    ∀ (calls : List StackMapCall) {s s' : StackMapStream}, s.callAll calls = some s' →
      s'.stackMaps.rows.length ≤ s.stackMaps.rows.length + calls.length
  | [], _, _, h => by
    cases h
    exact Nat.le_refl _
  | c :: cs, s, s', h => by
    rw [callAll, Option.bind_eq_some_iff] at h
    obtain ⟨t, ht, hrest⟩ := h
    have h₁ := call_rows_length ht
    have h₂ := callAll_rows_length cs hrest
    rw [List.length_cons]
    omega

/-- The run lemma: a sequence of calls keeps the order of the rows, and the method's fields. -/
theorem callAll_orderInv {isa : InstructionSet} :
    ∀ (calls : List StackMapCall) {s s' : StackMapStream}, (∀ c ∈ calls, c.nativePcFits = true) →
      s.instructionSet = isa → OrderInv isa s → s.callAll calls = some s' →
        OrderInv isa s' ∧ s'.methodFields = s.methodFields
  | [], _, _, _, _, hinv, h => by
    cases h
    exact ⟨hinv, rfl⟩
  | c :: cs, s, s', hfit, hisa, hinv, h => by
    rw [callAll, Option.bind_eq_some_iff] at h
    obtain ⟨t, ht, hrest⟩ := h
    have hfields := call_methodFields ht
    have hisa' : t.instructionSet = isa := (congrArg Prod.fst hfields).trans hisa
    obtain ⟨hinv', hfields'⟩ := callAll_orderInv cs (fun c hc => hfit c (List.mem_cons_of_mem _ hc))
      hisa' (call_orderInv (hfit c List.mem_cons_self) hisa hinv ht) hrest
    exact ⟨hinv', hfields'.trans hfields⟩

/-- `EndMethod` stores the stack mask indices, in a column of their own. -/
theorem readStackMasks_rowKeys : ∀ (stackMasks : List (Option (List Bool))) (i : Nat)
    (stackMaps : BitTableBuilder) (masks : BitmapTableBuilder),
    (readStackMasks stackMasks i stackMaps masks).1.rows.map rowKey = stackMaps.rows.map rowKey
  | [], _, _, _ => rfl
  | none :: rest, i, stackMaps, masks => by
    rw [readStackMasks, readStackMasks_rowKeys rest]
  | some mask :: rest, i, stackMaps, masks => by
    rw [readStackMasks]
    split_ifs
    · rw [readStackMasks_rowKeys rest]
      exact map_rowKey_set (rowKey_set (by decide) _ _)
    · rw [readStackMasks_rowKeys rest]

theorem endMethod_frame {s s' : StackMapStream} {codeSize : Nat} (h : s.endMethod codeSize = some s') :
    s'.methodFields = s.methodFields ∧ s'.orderView = s.orderView ∧ s'.codeSize = u32 codeSize := by
  unfold endMethod at h
  dsimp only at h
  split_ifs at h
  cases h
  exact ⟨rfl, Prod.ext (readStackMasks_rowKeys _ _ _ _) rfl, rfl⟩

/-- `BeginMethod` starts from an empty stream and stores the method's fields in `uint32_t`. -/
theorem beginMethod_frame {isa : InstructionSet} {frameSizeInBytes coreSpillMask fpSpillMask
    numDexRegisters : Nat} {baseline : Bool} {s : StackMapStream}
    (h : (create isa).beginMethod frameSizeInBytes coreSpillMask fpSpillMask numDexRegisters baseline =
      some s) :
    OrderInv isa s ∧ s.methodFields = (isa, u32 (frameSizeInBytes / kStackAlignment),
      u32 coreSpillMask, u32 fpSpillMask, numDexRegisters) ∧ s.stackMaps.rows = [] := by
  unfold beginMethod at h
  split_ifs at h
  cases h
  exact ⟨(orderInv_create isa).of_orderView rfl, rfl, rfl⟩

/-! ## The stack-map table read back

`Encode` writes the header, then the stack-map table when there is a stack map.  A code info
decoded from bits that start that way has the table's rows, as long as the header fields fit
in `uint32_t`: `bit_table_flags` says the table is present and stored in place. -/

/-- Bit `k` of a flags fold is set when it was set before, or `k` is a table the fold visits
that is present. -/
theorem testBit_foldl_flags (present : Nat → Bool) : ∀ (l : List Nat) (acc k : Nat),
    (l.foldl (fun flags i => if present i then flags ||| 1 <<< i else flags) acc).testBit k =
      (acc.testBit k || (decide (k ∈ l) && present k))
  | [], acc, k => by simp
  | i :: l, acc, k => by
    rw [List.foldl_cons, testBit_foldl_flags present l]
    by_cases hik : k = i
    · subst hik
      cases present k <;> simp [Nat.testBit_or, Nat.one_shiftLeft]
    · cases present i <;> simp [Nat.testBit_or, Nat.one_shiftLeft, hik, Ne.symm hik]

theorem testBit_bitTableFlags (s : StackMapStream) (k : Nat) :
    s.bitTableFlags.testBit k = (decide (k < kNumBitTables) && s.tableSizes.getD k 0 != 0) := by
  unfold bitTableFlags
  rw [testBit_foldl_flags, Nat.zero_testBit, Bool.false_or]
  simp only [List.mem_range]

theorem bitTableFlags_lt (s : StackMapStream) : s.bitTableFlags < 2 ^ 32 := by
  apply Nat.lt_pow_two_of_testBit
  intro k hk
  rw [testBit_bitTableFlags]
  simp [kNumBitTables, show ¬k < 8 by omega]

/-- The stack-map table is present and stored in place, exactly when there is a stack map. -/
theorem hasBitTable_stackMaps (s : StackMapStream) :
    hasBitTable s.bitTableFlags 0 = (s.stackMaps.size != 0) ∧
      isBitTableDeduped s.bitTableFlags 0 = false := by
  unfold hasBitTable isBitTableDeduped
  rw [testBit_bitTableFlags, testBit_bitTableFlags]
  exact ⟨by simp [kNumBitTables, tableSizes], by simp [kNumBitTables]⟩

/-- A table writer only appends to its output. -/
theorem prefix_encode_bitTable (b : BitTableBuilder) (numColumns : Nat) (out : BitMemoryWriter) :
    out.bits <+: (b.encode numColumns out).bits := by
  unfold BitTableBuilder.encode
  rw [encodeBitTable_bits, List.append_assoc]
  exact List.prefix_append _ _

theorem prefix_encode_bitmapTable (b : BitmapTableBuilder) (out : BitMemoryWriter) :
    out.bits <+: (b.encode out).bits := by
  unfold BitmapTableBuilder.encode
  rw [encodeBitmapTable_bits, List.append_assoc]
  exact List.prefix_append _ _

theorem prefix_ite {c : Prop} [Decidable c] {f : BitMemoryWriter → BitMemoryWriter}
    (hf : ∀ out, out.bits <+: (f out).bits) (out : BitMemoryWriter) :
    out.bits <+: (if c then f out else out).bits := by
  split_ifs
  · exact hf out
  · exact List.prefix_refl _

/-- The tables after the stack maps are written after them. -/
theorem prefix_encodeTables (s : StackMapStream) (out : BitMemoryWriter)
    (hne : s.stackMaps.size ≠ 0) : (s.stackMaps.encode 8 out).bits <+: (s.encodeTables out).bits := by
  unfold encodeTables
  rw [if_pos (show (s.stackMaps.size != 0) = true by simpa using hne)]
  refine List.IsPrefix.trans ?_ (prefix_ite (prefix_encode_bitTable s.dexRegisterCatalog 2) _)
  refine List.IsPrefix.trans ?_ (prefix_ite (prefix_encode_bitTable s.dexRegisterMaps 1) _)
  refine List.IsPrefix.trans ?_ (prefix_ite (prefix_encode_bitmapTable s.dexRegisterMasks) _)
  refine List.IsPrefix.trans ?_ (prefix_ite (prefix_encode_bitTable s.methodInfos 1) _)
  refine List.IsPrefix.trans ?_ (prefix_ite (prefix_encode_bitTable s.inlineInfos 6) _)
  refine List.IsPrefix.trans ?_ (prefix_ite (prefix_encode_bitmapTable s.stackMasks) _)
  exact prefix_ite (prefix_encode_bitTable s.registerMasks 2) _

/-- A row of eight columns of at most 32 bits each has at most 256 bits. -/
theorem stackMapWidths_le (rows : List (List Nat)) : (measureColumns 8 rows).sum ≤ 256 := by
  have hsum := List.sum_le_card_nsmul (measureColumns 8 rows) 32 (measureColumns_le rows)
  rwa [length_measureColumns] at hsum

end StackMapStream

namespace CodeInfo

/-- Bits that start with a header whose flags say the stack-map table is stored in place, and
then the table `Encode` writes for `rows`, decode to a code info whose stack-map table holds
`rows`, as long as the header fields fit in `uint32_t` and the decoded row count is theirs. -/
theorem stackMaps_decode_of_prefix {bits : List Bool} {header : List Nat} {rows : List (List Nat)}
    (hlen : header.length = kNumHeaders) (hlt : ∀ v ∈ header, v < 2 ^ 32)
    (hhas : hasBitTable (header.getD 6 0) 0 = true)
    (hded : isBitTableDeduped (header.getD 6 0) 0 = false)
    (hpre : interleavedVarintBits header ++
      (interleavedVarintBits (rows.length :: measureColumns 8 rows) ++
        (rows.map (rowBits 8 (measureColumns 8 rows))).flatten) <+: bits)
    (hcount : (decode bits 0).1.getNumberOfStackMaps = rows.length) :
    (decode bits 0).1.stackMaps =
      ⟨rows.length, measureColumns 8 rows, (rows.map (rowBits 8 (measureColumns 8 rows))).flatten⟩ := by
  set headerBits := interleavedVarintBits header
  set region := interleavedVarintBits (rows.length :: measureColumns 8 rows) ++
    (rows.map (rowBits 8 (measureColumns 8 rows))).flatten
  set reader : BitMemoryReader :=
    { BitMemoryReader.create bits 0 with numberOfReadBits := 0 + headerBits.length }
  have hread : (BitMemoryReader.create bits 0).readInterleavedVarints kNumHeaders =
      (header, reader) := by
    rw [← hlen]
    apply BitMemoryReader.readInterleavedVarints_of_slice hlt
    have hheader : [] ++ headerBits <+: bits := (List.prefix_append headerBits region).trans hpre
    exact slice_of_append_isPrefix hheader
  have htable : (decode bits 0).1.stackMaps = (BitTable.decode 8 reader).1 := by
    rw [decode_of_readHeader hread]
    show ((decodeBitTables bits 0 (header.getD 6 0) 0 bitTableColumns reader).1).getD 0
      (BitTable.empty ((bitTableColumns.map Fin.val).getD 0 0)) = _
    rw [show bitTableColumns = 8 :: [2, 1, 6, 1, 1, 1, 2] from rfl, decodeBitTables_cons,
      @decodeBitTable_inline bits 0 (header.getD 6 0) 0 8 reader hhas hded rfl]
    rfl
  have hrows : rows.length < 2 ^ 32 := by
    have := numRows_decode_lt 8 reader
    rwa [← htable, ← getNumberOfStackMaps, hcount] at this
  have hslice : slice reader.data reader.pos region.length = region := by
    show slice bits (0 + (0 + headerBits.length)) region.length = region
    rw [Nat.zero_add, Nat.zero_add]
    exact slice_of_append_isPrefix hpre
  rw [htable]
  exact congrArg Prod.fst (BitTable.decode_of_tableRegion
    (tableRegion_encodeBitTable 8 hrows) hslice)

end CodeInfo

namespace StackMapStream

/-- A code info decoded from what `Encode` returns has the stream's stack maps, each value in
`uint32_t`, when the header fields fit in `uint32_t` and there are at most `2 ^ 24` stack maps,
whose rows of at most 256 bits the `uint32_t` cell offsets reach. -/
theorem decode_stackMaps_of_encode {s : StackMapStream} {bits : List Bool} (h : s.encode = some bits)
    (hheader : ∀ v ∈ [s.codeSize, s.packedFrameSize, s.coreSpillMask, s.fpSpillMask,
      s.numDexRegisters], v < 2 ^ 32) (hrows : s.stackMaps.rows.length ≤ 2 ^ 24) :
    (CodeInfo.decode bits 0).1.getNumberOfStackMaps = s.stackMaps.rows.length ∧
      ∀ row (hr : row < s.stackMaps.rows.length), ∀ column < 8,
        (CodeInfo.decode bits 0).1.stackMaps.get row column =
          s.stackMaps.rows[row].getD column 0 % 2 ^ 32 := by
  unfold encode at h
  dsimp only at h
  generalize hf : (_ ||| _ : Nat) = flags at h
  have hflags : flags < 2 ^ 32 := by
    rw [← hf]
    exact Nat.or_lt_two_pow (by split_ifs <;> decide) (by split_ifs <;> decide)
  split_ifs at h with hin hcheck
  cases h
  set header : List Nat := [flags, s.codeSize, s.packedFrameSize, s.coreSpillMask, s.fpSpillMask,
    s.numDexRegisters, s.bitTableFlags]
  set bits := (s.encodeTables ((BitMemoryWriter.mk []).writeInterleavedVarints header)).bits
  have hcount : (CodeInfo.decode bits 0).1.getNumberOfStackMaps = s.stackMaps.size := by
    simp only [Bool.or_eq_true, bne_iff_ne, ne_eq, not_or, not_not] at hcheck
    exact hcheck.1.1.2
  refine ⟨hcount, fun row hr column hc => ?_⟩
  -- there is a stack map, so the table was written, right after the header
  have hne : s.stackMaps.size ≠ 0 := by
    unfold BitTableBuilder.size
    omega
  obtain ⟨hhas, hded⟩ := hasBitTable_stackMaps s
  rw [show (s.stackMaps.size != 0) = true by simpa using hne] at hhas
  have hpre := prefix_encodeTables s ((BitMemoryWriter.mk []).writeInterleavedVarints header) hne
  rw [BitTableBuilder.encode, encodeBitTable_bits, BitMemoryWriter.writeInterleavedVarints_bits,
    List.nil_append, List.append_assoc] at hpre
  have hlt : ∀ v ∈ header, v < 2 ^ 32 := by
    simp only [List.forall_mem_cons, List.not_mem_nil, IsEmpty.forall_iff, implies_true,
      and_true] at hheader
    simp only [header, List.forall_mem_cons, List.not_mem_nil, IsEmpty.forall_iff, implies_true,
      and_true]
    exact ⟨hflags, hheader.1, hheader.2.1, hheader.2.2.1, hheader.2.2.2.1, hheader.2.2.2.2,
      bitTableFlags_lt s⟩
  have hstack := CodeInfo.stackMaps_decode_of_prefix rfl hlt hhas hded hpre hcount
  have hsize : (row + 1) * (measureColumns 8 s.stackMaps.rows).sum ≤ 2 ^ 32 :=
    calc (row + 1) * (measureColumns 8 s.stackMaps.rows).sum
        ≤ 2 ^ 24 * 256 := Nat.mul_le_mul (by omega) (stackMapWidths_le _)
      _ = 2 ^ 32 := by norm_num
  rw [hstack]
  exact get_encodedRows 8 hsize hr hc

end StackMapStream

end Art
