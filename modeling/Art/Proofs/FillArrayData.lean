import Mathlib
import Art.Dex.FillArrayData

/-!
# What the structural pass guarantees about a fill-array-data payload

The start of every instruction `ComputeWidthsAndCountOps` marks has its whole size inside the code
item (`widthsLoop_mem`), so a payload `CheckArrayData` accepts ends inside the code item as far as
its `uint32_t` table size says (`payload_table_in_bounds`).  When `element_width * element_count`
does not wrap, that table covers all the data bytes (`payload_data_in_bounds`), and the two
consumers stay inside the array and the code item (`fillArrayData_in_array`,
`buildFillArrayData_in_code_item`).

When the product wraps, all of this fails: `fill_array_data_wrapped_payload` is a code item the
pass accepts whose payload claims `2^31 + 1` two-byte elements in a table of one data unit.
-/

namespace Art

open Word32

theorem safeNext_eq_some {insns : List Nat} {pc next : Nat} (h : safeNext insns pc = some next) :
    codeUnitsRequiredForSizeComputation insns pc ≤ insns.length - pc ∧
      sizeInCodeUnits insns pc ≤ insns.length - pc ∧ next = pc + sizeInCodeUnits insns pc := by
  simp only [safeNext] at h
  split_ifs at h with h1 h2
  simp only [Option.some.injEq] at h
  exact ⟨by omega, by omega, h.symm⟩

/-- Every dex pc the walk marks is the start of an instruction whose size, and the units needed
to compute it, lie inside the code item. -/
theorem widthsLoop_mem (insns : List Nat) :
    ∀ (fuel pc : Nat) {ops : List Nat} {q : Nat}, widthsLoop insns fuel pc = some ops → q ∈ ops →
      q < insns.length ∧ codeUnitsRequiredForSizeComputation insns q ≤ insns.length - q ∧
        sizeInCodeUnits insns q ≤ insns.length - q
  | 0, pc, ops, q, h, hq => by
    simp only [widthsLoop] at h
    split_ifs at h
    simp only [Option.some.injEq] at h
    simp [← h] at hq
  | fuel + 1, pc, ops, q, h, hq => by
    simp only [widthsLoop] at h
    split_ifs at h with hpc
    · rcases hn : safeNext insns pc with _ | next <;> rw [hn] at h
      · simp at h
      · obtain ⟨rest, hrest, rfl⟩ := Option.map_eq_some_iff.mp h
        rcases List.mem_cons.mp hq with rfl | hq
        · obtain ⟨h1, h2, -⟩ := safeNext_eq_some hn
          exact ⟨hpc, h1, h2⟩
        · exact widthsLoop_mem insns fuel next hrest hq
    · simp only [Option.some.injEq] at h
      simp [← h] at hq

theorem computeWidthsAndCountOps_mem {insns ops : List Nat} {q : Nat}
    (h : computeWidthsAndCountOps insns = some ops) (hq : q ∈ ops) :
    q < insns.length ∧ codeUnitsRequiredForSizeComputation insns q ≤ insns.length - q ∧
      sizeInCodeUnits insns q ≤ insns.length - q :=
  widthsLoop_mem insns insns.length 0 h hq

set_option maxRecDepth 4096 in
/-- Every opcode of `kInstructionDescriptors` has a positive size, so the walk advances. -/
theorem sizeInCodeUnitsOfOpcode_pos :
    ∀ op < 256, (sizeInCodeUnitsOfOpcode op).all (1 ≤ ·) = true := by
  decide

/-- The outer `uint32_t` sum of the table size never wraps. -/
theorem arrayDataTableSize_eq (width count : Nat) :
    arrayDataTableSize width count = 4 + u32 (u32 (width * count) + 1) / 2 := by
  have h := u32_lt (u32 (width * count) + 1)
  exact u32_of_lt (by omega)

/-- Without wrap-around the table holds the header and `ceil(width * count / 2)` data units. -/
theorem arrayDataTableSize_of_lt {width count : Nat} (h : width * count + 1 < 2 ^ 32) :
    arrayDataTableSize width count = 4 + (width * count + 1) / 2 := by
  rw [arrayDataTableSize_eq, u32_of_lt (by omega : width * count < 2 ^ 32), u32_of_lt h]

theorem sizeInCodeUnits_pos (insns : List Nat) (pc : Nat) : 1 ≤ sizeInCodeUnits insns pc := by
  unfold sizeInCodeUnits
  split
  · rename_i n hn
    have h := sizeInCodeUnitsOfOpcode_pos (opcodeAt insns pc) (Nat.mod_lt _ (by decide))
    simpa [hn] using h
  · dsimp only [sizeInCodeUnitsComplexOpcode]
    split_ifs
    · omega
    · omega
    · rw [arrayDataTableSize_eq]
      omega
    · exact le_rfl

/-- One more unit of fuel changes nothing once the fuel covers the units left: the bounded walk
is `ComputeWidthsAndCountOps`'s unbounded loop. -/
theorem widthsLoop_succ (insns : List Nat) :
    ∀ (fuel pc : Nat), insns.length ≤ pc + fuel →
      widthsLoop insns (fuel + 1) pc = widthsLoop insns fuel pc
  | 0, pc, h => by
    simp only [widthsLoop, if_neg (show ¬pc < insns.length by omega)]
  | fuel + 1, pc, h => by
    rw [widthsLoop, widthsLoop]
    split_ifs with hpc
    · rcases hn : safeNext insns pc with _ | next
      · rfl
      · obtain ⟨-, -, hnext⟩ := safeNext_eq_some hn
        have hpos := sizeInCodeUnits_pos insns pc
        simp only
        rw [widthsLoop_succ insns fuel next (by omega)]
    · rfl

theorem opcodeAt_of_signature {insns : List Nat} {pc : Nat}
    (h : fetch16 insns pc = kArrayDataSignature) : opcodeAt insns pc = 0 := by
  simp [opcodeAt, h, kArrayDataSignature]

/-- The iterator sizes a fill-array-data payload by its `uint32_t` table size. -/
theorem sizeInCodeUnits_of_signature {insns : List Nat} {pc : Nat}
    (h : fetch16 insns pc = kArrayDataSignature) :
    sizeInCodeUnits insns pc = arrayDataTableSize (payloadWidth insns pc) (payloadCount insns pc) := by
  simp [sizeInCodeUnits, opcodeAt_of_signature h, sizeInCodeUnitsOfOpcode,
    instructionSizeInCodeUnitsByOpcode, sizeInCodeUnitsComplexOpcode, h, kArrayDataSignature,
    kPackedSwitchSignature, kSparseSwitchSignature, payloadWidth, payloadCount]

theorem codeUnitsRequired_of_signature {insns : List Nat} {pc : Nat}
    (h : fetch16 insns pc = kArrayDataSignature) :
    codeUnitsRequiredForSizeComputation insns pc = 4 := by
  simp [codeUnitsRequiredForSizeComputation, opcodeAt_of_signature h, sizeInCodeUnitsOfOpcode,
    instructionSizeInCodeUnitsByOpcode, codeUnitsRequiredForSizeOfComplexOpcode, h,
    kArrayDataSignature, kPackedSwitchSignature, kSparseSwitchSignature]

theorem fetch16_lt {insns : List Nat} (hu : ∀ u ∈ insns, u < 2 ^ 16) (pc : Nat) :
    fetch16 insns pc < 2 ^ 16 := by
  unfold fetch16
  rw [List.getD_eq_getElem?_getD]
  rcases Nat.lt_or_ge pc insns.length with h | h
  · rw [List.getElem?_eq_getElem h, Option.getD_some]
    exact hu _ (List.getElem_mem h)
  · rw [List.getElem?_eq_none h, Option.getD_none]
    decide

theorem fetch32_lt {insns : List Nat} (hu : ∀ u ∈ insns, u < 2 ^ 16) (pc : Nat) :
    fetch32 insns pc < 2 ^ 32 := by
  have hlo := fetch16_lt hu pc
  have hhi := fetch16_lt hu (pc + 1)
  unfold fetch32
  apply Nat.or_lt_two_pow (by omega)
  rw [Nat.shiftLeft_eq]
  omega

theorem checkArrayData_spec {insns ops : List Nat} {cur : Nat}
    (h : checkArrayData insns ops cur = true) :
    0 ≤ toInt32 cur + arrayDataOffset insns cur ∧ u32I (cur + arrayDataOffset insns cur) ∈ ops := by
  simp only [checkArrayData] at h
  split_ifs at h with h1 h2 h3 h4
  exact ⟨by omega, by simpa using h3⟩

theorem verifyArrayData_spec {insns ops : List Nat} (h : verifyArrayData insns = some ops) :
    computeWidthsAndCountOps insns = some ops ∧
      ∀ p ∈ ops, opcodeAt insns p = kFillArrayData → checkArrayData insns ops p = true := by
  unfold verifyArrayData at h
  split at h
  · simp at h
  · rename_i opcodes hc
    split_ifs at h with hall
    simp only [Option.some.injEq] at h
    subst h
    refine ⟨hc, fun p hp hfill => ?_⟩
    have := List.all_eq_true.mp hall p hp
    simpa [hfill] using this

/-- On a code item of at most `2^31` units, the payload a fill-array-data points to is the
instruction whose opcode flag `CheckArrayData` tested. -/
theorem arrayDataStart_mem (c : CodeItem) (hlen : c.insns.length ≤ 2 ^ 31) {ops : List Nat}
    (hv : verifyArrayData c.insns = some ops) {p : Nat} (hp : p ∈ ops)
    (hfill : opcodeAt c.insns p = kFillArrayData) : arrayDataStart c.insns p ∈ ops := by
  obtain ⟨hw, hall⟩ := verifyArrayData_spec hv
  obtain ⟨h0, hmem⟩ := checkArrayData_spec (hall p hp hfill)
  have hplt := (computeWidthsAndCountOps_mem hw hp).1
  have hoff := toInt32_lt (fetch32_lt c.units_lt (p + 1))
  rw [toInt32_of_lt (by omega)] at h0
  unfold arrayDataOffset at h0 hmem
  rwa [u32I_of_lt h0 (by omega)] at hmem

/-- A payload the structural pass accepts ends inside the code item, by its own `uint32_t` table
size: the walk sized it by that table before `CheckArrayData` looked at it. -/
theorem payload_table_in_bounds (c : CodeItem) (hlen : c.insns.length ≤ 2 ^ 31) {ops : List Nat}
    (hv : verifyArrayData c.insns = some ops) {p : Nat} (hp : p ∈ ops)
    (hfill : opcodeAt c.insns p = kFillArrayData)
    (hsig : fetch16 c.insns (arrayDataStart c.insns p) = kArrayDataSignature) :
    arrayDataStart c.insns p + 4 ≤ c.insns.length ∧
      arrayDataStart c.insns p + arrayDataTableSize (payloadWidth c.insns (arrayDataStart c.insns p))
        (payloadCount c.insns (arrayDataStart c.insns p)) ≤ c.insns.length := by
  have hmem := arrayDataStart_mem c hlen hv hp hfill
  obtain ⟨hlt, hreq, hsize⟩ := computeWidthsAndCountOps_mem (verifyArrayData_spec hv).1 hmem
  rw [codeUnitsRequired_of_signature hsig] at hreq
  rw [sizeInCodeUnits_of_signature hsig] at hsize
  omega

/-- When `element_width * element_count` does not wrap, the accepted table covers every data
byte: the payload's `element_width * element_count` bytes lie inside the code item. -/
theorem payload_data_in_bounds (c : CodeItem) (hlen : c.insns.length ≤ 2 ^ 31) {ops : List Nat}
    (hv : verifyArrayData c.insns = some ops) {p : Nat} (hp : p ∈ ops)
    (hfill : opcodeAt c.insns p = kFillArrayData)
    (hsig : fetch16 c.insns (arrayDataStart c.insns p) = kArrayDataSignature)
    (hwrap : payloadWidth c.insns (arrayDataStart c.insns p) *
      payloadCount c.insns (arrayDataStart c.insns p) + 1 < 2 ^ 32) :
    2 * (arrayDataStart c.insns p + 4) + payloadWidth c.insns (arrayDataStart c.insns p) *
      payloadCount c.insns (arrayDataStart c.insns p) ≤ 2 * c.insns.length ∧
    sizeInCodeUnits c.insns (arrayDataStart c.insns p) = 4 +
      (payloadWidth c.insns (arrayDataStart c.insns p) *
        payloadCount c.insns (arrayDataStart c.insns p) + 1) / 2 := by
  have hb := (payload_table_in_bounds c hlen hv hp hfill hsig).2
  rw [arrayDataTableSize_of_lt hwrap] at hb
  refine ⟨by omega, ?_⟩
  rw [sizeInCodeUnits_of_signature hsig, arrayDataTableSize_of_lt hwrap]

/-- With a count that is a non-negative `int32_t` and a byte size that does not wrap,
`FillArrayData` copies exactly `count * width` bytes, and only into an array of at least `count`
elements. -/
theorem fillArrayData_in_array {length width count bytes : Nat} (hc : count < 2 ^ 31)
    (hw : count * width < 2 ^ 32) (h : fillArrayData (some length) width count = .copied bytes) :
    bytes = count * width ∧ count ≤ length := by
  simp only [fillArrayData] at h
  split_ifs at h with hlt
  simp only [FillArrayDataResult.copied.injEq] at h
  rw [toInt32_of_lt hc] at hlt
  exact ⟨h ▸ u32_of_lt hw, by omega⟩

theorem buildFillArrayData_payloadOffset (c : CodeItem) (hlen : c.insns.length ≤ 2 ^ 31)
    {ops : List Nat} (hv : verifyArrayData c.insns = some ops) {p : Nat} (hp : p ∈ ops)
    (hfill : opcodeAt c.insns p = kFillArrayData) :
    (toInt32 (u32I (arrayDataOffset c.insns p + p))).toNat = arrayDataStart c.insns p := by
  obtain ⟨hw, hall⟩ := verifyArrayData_spec hv
  have h0 := (checkArrayData_spec (hall p hp hfill)).1
  have hlt := (computeWidthsAndCountOps_mem hw (arrayDataStart_mem c hlen hv hp hfill)).1
  have hplt := (computeWidthsAndCountOps_mem hw hp).1
  rw [toInt32_of_lt (by omega)] at h0
  have hstart : ((p : Int) + arrayDataOffset c.insns p).toNat < 2 ^ 31 := by
    unfold arrayDataStart at hlt
    omega
  unfold arrayDataStart
  rw [add_comm, u32I_of_lt h0 (by omega), toInt32_of_lt hstart]
  exact Int.toNat_natCast _

/-- Without wrap-around, every value `BuildFillArrayData` reads comes from inside the code item. -/
theorem buildFillArrayData_in_code_item (c : CodeItem) (hlen : c.insns.length ≤ 2 ^ 31)
    {ops : List Nat} (hv : verifyArrayData c.insns = some ops) {p : Nat} (hp : p ∈ ops)
    (hfill : opcodeAt c.insns p = kFillArrayData)
    (hsig : fetch16 c.insns (arrayDataStart c.insns p) = kArrayDataSignature)
    (hwrap : payloadWidth c.insns (arrayDataStart c.insns p) *
      payloadCount c.insns (arrayDataStart c.insns p) + 1 < 2 ^ 32)
    {stores : List (Nat × Nat)} (hb : buildFillArrayData c.insns p = some stores) :
    ∀ s ∈ stores, s.2 + payloadWidth c.insns (arrayDataStart c.insns p) ≤ 2 * c.insns.length := by
  have hdata := (payload_data_in_bounds c hlen hv hp hfill hsig hwrap).1
  intro s hs
  simp only [buildFillArrayData, buildFillArrayData_payloadOffset c hlen hv hp hfill] at hb
  set w := payloadWidth c.insns (arrayDataStart c.insns p)
  set n := payloadCount c.insns (arrayDataStart c.insns p)
  split_ifs at hb
  · simp only [Option.some.injEq] at hb
    simp [← hb] at hs
  · simp only [Option.some.injEq] at hb
    rw [← hb] at hs
    obtain ⟨i, hi, rfl⟩ := List.mem_map.mp hs
    -- element `i` ends at byte `(i + 1) * w` of the data, at most `n * w`
    have hle : (i + 1) * w ≤ n * w := Nat.mul_le_mul_right _ (List.mem_range.mp hi)
    rw [Nat.add_one_mul, Nat.mul_comm n] at hle
    simp only
    omega

/-- Without wrap-around the payload and its two consumers stay in bounds: the accepted payload's
data lies inside the code item, every value `BuildFillArrayData` reads comes from inside it, and
`FillArrayData` copies exactly `count * width` bytes into an array of at least `count` elements. -/
theorem fill_array_data_in_bounds_without_wrap :
    (∀ (c : CodeItem) (ops : List Nat) (p : Nat), c.insns.length ≤ 2 ^ 31 →
      verifyArrayData c.insns = some ops → p ∈ ops → opcodeAt c.insns p = kFillArrayData →
      fetch16 c.insns (arrayDataStart c.insns p) = kArrayDataSignature →
      payloadWidth c.insns (arrayDataStart c.insns p) *
        payloadCount c.insns (arrayDataStart c.insns p) + 1 < 2 ^ 32 →
      2 * (arrayDataStart c.insns p + 4) + payloadWidth c.insns (arrayDataStart c.insns p) *
          payloadCount c.insns (arrayDataStart c.insns p) ≤ 2 * c.insns.length ∧
        ∀ stores, buildFillArrayData c.insns p = some stores → ∀ s ∈ stores,
          s.2 + payloadWidth c.insns (arrayDataStart c.insns p) ≤ 2 * c.insns.length) ∧
    ∀ length width count bytes : Nat, count < 2 ^ 31 → count * width < 2 ^ 32 →
      fillArrayData (some length) width count = .copied bytes →
        bytes = count * width ∧ count ≤ length :=
  ⟨fun c _ _ hlen hv hp hfill hsig hwrap =>
    ⟨(payload_data_in_bounds c hlen hv hp hfill hsig hwrap).1,
      fun _ hb => buildFillArrayData_in_code_item c hlen hv hp hfill hsig hwrap hb⟩,
    fun _ _ _ _ hc hw h => fillArrayData_in_array hc hw h⟩

/-- The code item of the failing input: `fill-array-data v0, +4`, `return-void`, and at dex pc 4 a
payload of width 2 and count `0x80000001` followed by a single data unit. -/
def wrappedPayloadItem : CodeItem where
  insns := [0x0026, 0x0004, 0x0000, 0x000e, 0x0300, 0x0002, 0x0001, 0x8000, 0x0000]
  units_lt := by decide
  length_lt := by decide

/-- The structural pass accepts `wrappedPayloadItem`, whose payload's `2 * (2^31 + 1)` data bytes
run far past the 18 bytes of the code item; the iterator sizes the payload at 5 units, not
`4 + 2^31 + 1`; `FillArrayData` copies 2 bytes into an empty `short[]`; and `BuildFillArrayData`
reads element `2^31` from byte `2^32 + 16`. -/
theorem fill_array_data_wrapped_payload :
    verifyArrayData wrappedPayloadItem.insns = some [0, 3, 4] ∧
      opcodeAt wrappedPayloadItem.insns 0 = kFillArrayData ∧
      arrayDataStart wrappedPayloadItem.insns 0 = 4 ∧
      fetch16 wrappedPayloadItem.insns 4 = kArrayDataSignature ∧
      payloadWidth wrappedPayloadItem.insns 4 = 2 ∧
      payloadCount wrappedPayloadItem.insns 4 = 2 ^ 31 + 1 ∧
      2 * wrappedPayloadItem.insns.length < 2 * (4 + 4) + 2 * (2 ^ 31 + 1) ∧
      sizeInCodeUnits wrappedPayloadItem.insns 4 = 5 ∧
      fillArrayData (some 0) 2 (2 ^ 31 + 1) = .copied 2 ∧
      ∃ stores, buildFillArrayData wrappedPayloadItem.insns 0 = some stores ∧
        (2 ^ 31, 2 * (4 + 4) + 2 ^ 31 * 2) ∈ stores := by
  have hoff : (toInt32 (u32I (arrayDataOffset wrappedPayloadItem.insns 0))).toNat = 4 := by
    decide
  have hwidth : payloadWidth wrappedPayloadItem.insns 4 = 2 := by decide
  have hcount : payloadCount wrappedPayloadItem.insns 4 = 2 ^ 31 + 1 := by decide
  refine ⟨by decide, by decide, by decide, by decide, hwidth, hcount, by decide, by decide,
    by decide, ?_⟩
  simp only [buildFillArrayData, Nat.cast_zero, add_zero, hoff, hwidth, hcount]
  refine ⟨_, rfl, ?_⟩
  simp

end Art
