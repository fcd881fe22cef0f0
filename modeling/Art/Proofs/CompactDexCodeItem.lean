import Mathlib
import Art.Dex.CompactDexFile

/-!
# The code item header round trip

`Create` pushes the preheader as a list of code units, each below the last (`create_eq`): the
instruction count's high part as two halves when it is not zero, then the high part of each size
that is not zero.  Its flags are those five conditions, under the count's low bits
(`createFlags_insnsCount`).  `DecodeFields` pops the same list in the same order
(`decodePreHeaders_pushList`), so each field reads back as its nibble plus its high part, and
`registers_size` as `registers_size - ins_size` plus `ins_size` (`decodeFields_create`).
-/

namespace Art

namespace CompactDexFile

namespace CodeItem

section Push

/-- Pushes of code units downwards from `ptr`, one `pushPreHeader` each. -/
def pushList (mem : CodeUnits) (ptr : Int) : List (BitVec 16) → CodeUnits × Int
  | [] => (mem, ptr)
  | v :: vs => pushList (pushPreHeader mem ptr v).1 (ptr - 1) vs

variable {mem : CodeUnits} {ptr : Int}

@[simp] theorem pushList_snd (mem : CodeUnits) (ptr : Int) (vs : List (BitVec 16)) :
    (pushList mem ptr vs).2 = ptr - vs.length := by
  induction vs generalizing mem ptr with
  | nil => simp [pushList]
  | cons v vs ih =>
    rw [pushList, ih, List.length_cons]
    omega

theorem pushList_append (mem : CodeUnits) (ptr : Int) (a b : List (BitVec 16)) :
    pushList mem ptr (a ++ b) = pushList (pushList mem ptr a).1 (ptr - a.length) b := by
  induction a generalizing mem ptr with
  | nil => simp [pushList]
  | cons v a ih =>
    rw [List.cons_append, pushList, pushList, ih, List.length_cons]
    congr 1
    omega

/-- The pushes write only the code units from where they end up to `ptr`. -/
theorem pushList_fst_of_not_mem (vs : List (BitVec 16)) {x : Int}
    (hx : x < ptr - vs.length ∨ ptr ≤ x) : (pushList mem ptr vs).1 x = mem x := by
  induction vs generalizing mem ptr with
  | nil => rfl
  | cons v vs ih =>
    rw [pushList, ih (by rw [List.length_cons] at hx; omega)]
    exact Function.update_of_ne (by rw [List.length_cons] at hx; omega) _ _

/-- The code unit pushed after `pre` sits `pre.length + 1` units below `ptr`. -/
theorem pushList_fst_append_cons (pre post : List (BitVec 16)) (v : BitVec 16) :
    (pushList mem ptr (pre ++ v :: post)).1 (ptr - pre.length - 1) = v := by
  rw [pushList_append, pushList, pushList_fst_of_not_mem _ (Or.inr (Int.le_refl _))]
  exact Function.update_self _ _ _

theorem pushList_fst_eq {L : List (BitVec 16)} (pre post : List (BitVec 16)) (v : BitVec 16)
    (hL : L = pre ++ v :: post) {q : Int} (hq : q = ptr - pre.length - 1) :
    (pushList mem ptr L).1 q = v := by
  rw [hL, hq]
  exact pushList_fst_append_cons pre post v

end Push

section Encode

/-- What `preheader_encode` pushes: the high part, when it is not zero. -/
def highUnits (size : BitVec 16) : List (BitVec 16) := if size ≠ 0 then [size] else []

/-- What `Create` pushes for the instruction count's high part: its two halves, low first. -/
def insnsUnits (high : BitVec 32) : List (BitVec 16) :=
  if high ≠ 0 then [high.setWidth 16, (high >>> 16).setWidth 16] else []

/-- The flag a step of `Create` sets, when it pushes. -/
def flagIf (c : Bool) (flag : BitVec 16) : BitVec 16 := if c then flag else 0

theorem highUnits_of_ne {v : BitVec 16} (h : v ≠ 0) : highUnits v = [v] := if_pos h

theorem insnsUnits_of_ne {H : BitVec 32} (h : H ≠ 0) :
    insnsUnits H = [H.setWidth 16, (H >>> 16).setWidth 16] := if_pos h

variable {mem : CodeUnits} {ptr : Int}

theorem pushPreHeader_pushList (vs : List (BitVec 16)) (v : BitVec 16) :
    pushPreHeader (pushList mem ptr vs).1 (pushList mem ptr vs).2 v =
      pushList mem ptr (vs ++ [v]) := by
  rw [pushList_append, pushList_snd]
  rfl

theorem preheaderEncode_pushList (size flag f : BitVec 16) (vs : List (BitVec 16)) :
    preheaderEncode size flag (f, pushList mem ptr vs) =
      (f ||| flagIf (size != 0) flag, pushList mem ptr (vs ++ highUnits size)) := by
  by_cases h : size = 0
  · subst h
    simp [preheaderEncode, highUnits, flagIf]
  · have hb : (size != 0) = true := bne_iff_ne.2 h
    simp only [preheaderEncode, highUnits, flagIf, if_pos h, hb, if_true, pushPreHeader_pushList]

/-- `Create`'s preheader part pushes the units of the nonzero high parts and sets their flags. -/
theorem encodePreHeader_pushList (r i o t f : BitVec 16) (high : BitVec 32)
    (vs : List (BitVec 16)) :
    encodePreHeader r i o t high (f, pushList mem ptr vs) =
      (f ||| flagIf (high != 0) kFlagPreHeaderInsnsSize |||
          flagIf (r != 0) kFlagPreHeaderRegistersSize ||| flagIf (i != 0) kFlagPreHeaderInsSize |||
          flagIf (o != 0) kFlagPreHeaderOutsSize ||| flagIf (t != 0) kFlagPreHeaderTriesSize,
        pushList mem ptr (vs ++ insnsUnits high ++ highUnits r ++ highUnits i ++ highUnits o ++
          highUnits t)) := by
  unfold encodePreHeader
  have hinsns : (if high ≠ 0 then
      (f ||| kFlagPreHeaderInsnsSize,
        pushList mem ptr (vs ++ [high.setWidth 16, (high >>> 16).setWidth 16]))
      else (f, pushList mem ptr vs)) =
      (f ||| flagIf (high != 0) kFlagPreHeaderInsnsSize,
        pushList mem ptr (vs ++ insnsUnits high)) := by
    by_cases h : high = 0
    · subst h
      simp [insnsUnits, flagIf]
    · have hb : (high != 0) = true := bne_iff_ne.2 h
      simp only [insnsUnits, flagIf, if_pos h, hb, if_true]
  simp only [pushPreHeader_pushList, List.append_assoc, List.singleton_append]
  rw [hinsns, preheaderEncode_pushList, preheaderEncode_pushList, preheaderEncode_pushList,
    preheaderEncode_pushList]
  simp only [List.append_assoc]

end Encode


section Create

/-- The low bits of the instruction count, which `Create` keeps in `insns_count_and_flags_`. -/
def insnsLow (n : BitVec 32) : BitVec 32 := n &&& ((1 <<< kInsnsSizeBits) - 1)

/-- The part of a size above its nibble, which `Create` keeps in the preheader. -/
def sizeHigh (x : BitVec 16) : BitVec 16 := x &&& ~~~0xF

/-- The code units `Create` pushes, in the order it pushes them. -/
def preheaderUnits (r i o t : BitVec 16) (n : BitVec 32) : List (BitVec 16) :=
  insnsUnits (n - insnsLow n) ++ highUnits (sizeHigh (r - i)) ++ highUnits (sizeHigh i) ++
    highUnits (sizeHigh o) ++ highUnits (sizeHigh t)

/-- The `fields_` that `Create` packs. -/
def createFields (r i o t : BitVec 16) : BitVec 16 :=
  ((r - i) &&& 0xF) <<< kRegistersSizeShift ||| (i &&& 0xF) <<< kInsSizeShift |||
    (o &&& 0xF) <<< kOutsSizeShift ||| (t &&& 0xF) <<< kTriesSizeSizeShift

/-- The `insns_count_and_flags_` that `Create` leaves. -/
def createFlags (r i o t : BitVec 16) (n : BitVec 32) : BitVec 16 :=
  (insnsLow n <<< kInsnsSizeShift).setWidth 16 |||
    flagIf (n - insnsLow n != 0) kFlagPreHeaderInsnsSize |||
    flagIf (sizeHigh (r - i) != 0) kFlagPreHeaderRegistersSize |||
    flagIf (sizeHigh i != 0) kFlagPreHeaderInsSize |||
    flagIf (sizeHigh o != 0) kFlagPreHeaderOutsSize |||
    flagIf (sizeHigh t != 0) kFlagPreHeaderTriesSize

theorem create_eq (r i o t : BitVec 16) (n : BitVec 32) (mem : CodeUnits) (p : Int) :
    create r i o t n mem p =
      (⟨createFields r i o t, createFlags r i o t n⟩,
        pushList mem p (preheaderUnits r i o t n)) := by
  have h := @encodePreHeader_pushList mem p (sizeHigh (r - i)) (sizeHigh i) (sizeHigh o)
    (sizeHigh t) ((insnsLow n <<< kInsnsSizeShift).setWidth 16) (n - insnsLow n) []
  simp only [pushList, List.nil_append] at h
  simp only [create, createFields, createFlags, preheaderUnits]
  rw [← insnsLow, ← sizeHigh, ← sizeHigh, ← sizeHigh, ← sizeHigh, h]

/-- At most `kMaxPreHeaderSize` units are pushed. -/
theorem length_preheaderUnits_le (r i o t : BitVec 16) (n : BitVec 32) :
    (preheaderUnits r i o t n).length ≤ kMaxPreHeaderSize := by
  have hi : ∀ x : BitVec 32, (insnsUnits x).length ≤ 2 := fun x => by
    unfold insnsUnits; split <;> simp
  have hh : ∀ x : BitVec 16, (highUnits x).length ≤ 1 := fun x => by
    unfold highUnits; split <;> simp
  simp only [preheaderUnits, List.length_append, kMaxPreHeaderSize]
  have := hi (n - insnsLow n)
  have := hh (sizeHigh (r - i)); have := hh (sizeHigh i); have := hh (sizeHigh o)
  have := hh (sizeHigh t)
  omega

end Create

section Bits

theorem nibble_add_sizeHigh (x : BitVec 16) : (x &&& 0xF) + sizeHigh x = x := by
  rw [sizeHigh, BitVec.add_eq_or_of_and_eq_zero]
  · ext k hk
    simp only [BitVec.getElem_or, BitVec.getElem_and, BitVec.getElem_not]
    cases x[k] <;> simp
  · ext k hk
    simp only [BitVec.getElem_and, BitVec.getElem_not, BitVec.getElem_zero]
    cases x[k] <;> simp

theorem toNat_nibble (x : BitVec 16) : (x &&& 0xF).toNat = x.toNat % 16 := by
  rw [BitVec.toNat_and, show (0xF : BitVec 16).toNat = 2 ^ 4 - 1 from rfl,
    Nat.and_two_pow_sub_one_eq_mod]

theorem toNat_insnsLow (n : BitVec 32) : (insnsLow n).toNat = n.toNat % 2 ^ kInsnsSizeBits := by
  have h : ((1 <<< kInsnsSizeBits : Nat) : BitVec 32) - 1 = BitVec.ofNat 32 (2 ^ 11 - 1) := by
    decide
  rw [insnsLow, h, BitVec.toNat_and, BitVec.toNat_ofNat, Nat.mod_eq_of_lt (by decide),
    Nat.and_two_pow_sub_one_eq_mod]
  rfl

theorem getElem_insnsLow (n : BitVec 32) (k : Nat) (hk : k < 32) :
    (insnsLow n)[k] = (decide (k < kInsnsSizeBits) && n[k]) := by
  rw [BitVec.getElem_eq_testBit_toNat, toNat_insnsLow, Nat.testBit_mod_two_pow,
    ← BitVec.getElem_eq_testBit_toNat]

/-- A size has a high part exactly when it does not fit its nibble. -/
theorem sizeHigh_eq_zero_iff (x : BitVec 16) : sizeHigh x = 0 ↔ x.toNat < 16 := by
  have h := nibble_add_sizeHigh x
  constructor
  · intro h0
    rw [h0] at h
    have := congrArg BitVec.toNat (by simpa using h : x &&& 0xF = x)
    rw [toNat_nibble] at this
    omega
  · intro hlt
    have hx : x &&& 0xF = x := BitVec.eq_of_toNat_eq (by rw [toNat_nibble]; omega)
    rw [hx] at h
    simpa using h

/-- The instruction count has a high part exactly when it does not fit its 11 bits. -/
theorem insnsHigh_eq_zero_iff (n : BitVec 32) :
    n - insnsLow n = 0 ↔ n.toNat < 2 ^ kInsnsSizeBits := by
  have hm := toNat_insnsLow n
  have hn := n.isLt
  rw [BitVec.toNat_eq, BitVec.toNat_sub, hm, show (0 : BitVec 32).toNat = 0 from rfl]
  simp only [kInsnsSizeBits, kInsnsSizeShift] at hm ⊢
  omega

theorem sizeHigh_bne_zero (x : BitVec 16) : (sizeHigh x != 0) = decide (16 ≤ x.toNat) := by
  rw [Bool.eq_iff_iff, bne_iff_ne, ne_eq, sizeHigh_eq_zero_iff, decide_eq_true_iff]
  omega

theorem insnsHigh_bne_zero (n : BitVec 32) :
    (n - insnsLow n != 0) = decide (2 ^ kInsnsSizeBits ≤ n.toNat) := by
  rw [Bool.eq_iff_iff, bne_iff_ne, ne_eq, insnsHigh_eq_zero_iff, decide_eq_true_iff]
  omega

/-- `fields_` gives back the four nibbles. -/
theorem createFields_nibbles (r i o t : BitVec 16) :
    (createFields r i o t >>> kRegistersSizeShift) &&& 0xF = (r - i) &&& 0xF ∧
    (createFields r i o t >>> kInsSizeShift) &&& 0xF = i &&& 0xF ∧
    (createFields r i o t >>> kOutsSizeShift) &&& 0xF = o &&& 0xF ∧
    (createFields r i o t >>> kTriesSizeSizeShift) &&& 0xF = t &&& 0xF := by
  refine ⟨?_, ?_, ?_, ?_⟩ <;>
  · ext k hk
    interval_cases k <;>
      simp [createFields, kRegistersSizeShift, kInsSizeShift, kOutsSizeShift, kTriesSizeSizeShift]

/-- The flags are `1 << kBit...` computed in `Nat`, so single bits. -/
theorem natShift_eq_twoPow (j : Nat) : ((1 <<< j : Nat) : BitVec 16) = BitVec.twoPow 16 j := by
  apply BitVec.eq_of_toNat_eq
  simp [Nat.shiftLeft_eq]

theorem hasPreHeader_twoPow (item : CodeItem) (j : Nat) (hj : j < 16) :
    item.hasPreHeader (BitVec.twoPow 16 j) = item.insnsCountAndFlags[j] := by
  have hne : BitVec.twoPow 16 j ≠ 0#16 := by
    intro h
    have := congrArg (·.getLsbD j) h
    simp [hj] at this
  unfold hasPreHeader
  rw [BitVec.and_twoPow]
  by_cases h : item.insnsCountAndFlags[j] <;> simp [h, hj, hne]

theorem getElem_flagIf (c : Bool) (F : BitVec 16) (j : Nat) (hj : j < 16) :
    (flagIf c F)[j] = (c && F[j]) := by
  cases c <;> simp [flagIf]

/-- The flags sit below the count's low bits, which `DecodeFields` shifts back down. -/
theorem createFlags_insnsCount (r i o t : BitVec 16) (n : BitVec 32) :
    (createFlags r i o t n >>> kInsnsSizeShift).setWidth 32 = insnsLow n := by
  ext k hk
  interval_cases k <;>
    simp [createFlags, getElem_flagIf, kInsnsSizeShift, getElem_insnsLow, kInsnsSizeBits,
      kFlagPreHeaderInsnsSize, kFlagPreHeaderRegistersSize, kFlagPreHeaderInsSize,
      kFlagPreHeaderOutsSize, kFlagPreHeaderTriesSize, kBitPreHeaderRegistersSize,
      kBitPreHeaderInsSize, kBitPreHeaderOutsSize, kBitPreHeaderTriesSize, kBitPreHeaderInsnsSize]

end Bits

section Decode

/-- The flags of a code item say which high parts were pushed. -/
structure FlagsOf (item : CodeItem) (H : BitVec 32) (R I O T : BitVec 16) : Prop where
  insns : item.hasPreHeader kFlagPreHeaderInsnsSize = (H != 0)
  registers : item.hasPreHeader kFlagPreHeaderRegistersSize = (R != 0)
  ins : item.hasPreHeader kFlagPreHeaderInsSize = (I != 0)
  outs : item.hasPreHeader kFlagPreHeaderOutsSize = (O != 0)
  tries : item.hasPreHeader kFlagPreHeaderTriesSize = (T != 0)

/-- `Create` sets the flag of each high part it pushes, and no other. -/
theorem flagsOf_create (F r i o t : BitVec 16) (n : BitVec 32) :
    FlagsOf ⟨F, createFlags r i o t n⟩ (n - insnsLow n) (sizeHigh (r - i)) (sizeHigh i)
      (sizeHigh o) (sizeHigh t) := by
  constructor <;>
  · simp only [kFlagPreHeaderInsnsSize, kFlagPreHeaderRegistersSize, kFlagPreHeaderInsSize,
      kFlagPreHeaderOutsSize, kFlagPreHeaderTriesSize, natShift_eq_twoPow]
    simp [hasPreHeader_twoPow, createFlags, getElem_flagIf, kInsnsSizeShift,
      kFlagPreHeaderInsnsSize, kFlagPreHeaderRegistersSize, kFlagPreHeaderInsSize,
      kFlagPreHeaderOutsSize, kFlagPreHeaderTriesSize, kBitPreHeaderRegistersSize,
      kBitPreHeaderInsSize, kBitPreHeaderOutsSize, kBitPreHeaderTriesSize, kBitPreHeaderInsnsSize]

/-- One `if (HasPreHeader(flag))` step of `DecodeFields`, on a flag that says whether `v`, the
unit below `preheader`, was pushed. -/
theorem decodePreHeader_eq (item : CodeItem) (M : CodeUnits) (flag size v : BitVec 16) (q : Int)
    (hflag : item.hasPreHeader flag = (v != 0)) (hmem : v ≠ 0 → M (q - 1) = v) :
    item.decodePreHeader M flag size q = (size + v, q - (highUnits v).length) := by
  unfold decodePreHeader highUnits
  by_cases h : v = 0
  · subst h
    simp [hflag]
  · have hb : (v != 0) = true := bne_iff_ne.2 h
    simp only [hflag, hb, if_true, if_pos h, hmem h, List.length_singleton, Nat.cast_one]

/-- The instruction count's step of `DecodeFields`: its two halves, low half first. -/
theorem decodeInsns_eq (item : CodeItem) (M : CodeUnits) (count H : BitVec 32) (q : Int)
    (hflag : item.hasPreHeader kFlagPreHeaderInsnsSize = (H != 0))
    (hmem : H ≠ 0 → M (q - 1) = H.setWidth 16 ∧ M (q - 2) = (H >>> 16).setWidth 16) :
    (if item.hasPreHeader kFlagPreHeaderInsnsSize then
        (count + (M (q - 1)).setWidth 32 + (M (q - 2)).setWidth 32 <<< 16, q - 2)
      else (count, q)) = (count + H, q - (insnsUnits H).length) := by
  unfold insnsUnits
  by_cases h : H = 0
  · subst h
    simp [hflag]
  · have hb : (H != 0) = true := bne_iff_ne.2 h
    obtain ⟨hlo, hhi⟩ := hmem h
    have hhalves :
        (H.setWidth 16).setWidth 32 + ((H >>> 16).setWidth 16).setWidth 32 <<< 16 = H := by
      apply BitVec.eq_of_toNat_eq
      have := H.isLt
      simp only [BitVec.toNat_add, BitVec.toNat_setWidth, BitVec.toNat_shiftLeft,
        BitVec.toNat_ushiftRight]
      omega
    simp only [hflag, hb, if_true, hlo, hhi, if_pos h, List.length_cons, List.length_nil]
    rw [BitVec.add_assoc, hhalves]
    simp only [Prod.mk.injEq, true_and]
    omega

variable {mem : CodeUnits} {ptr : Int}

/-- The preheader reads pop the pushed units in the order they were pushed, each into its
field. -/
theorem decodePreHeaders_pushList (k : Bool) (item : CodeItem) (H : BitVec 32)
    (R I O T : BitVec 16) (out : Fields) (hf : FlagsOf item H R I O T) :
    item.decodePreHeaders k
        (pushList mem ptr (insnsUnits H ++ highUnits R ++ highUnits I ++ highUnits O ++
          highUnits T)).1 ptr out =
      if !k then
        { insnsCount := out.insnsCount + H, registersSize := out.registersSize + R,
          insSize := out.insSize + I, outsSize := out.outsSize + O, triesSize := out.triesSize + T }
      else { out with insnsCount := out.insnsCount + H } := by
  set L := insnsUnits H ++ highUnits R ++ highUnits I ++ highUnits O ++ highUnits T with hL
  set M := (pushList mem ptr L).1
  -- each step reads the unit its pointer has reached, which is the next one pushed
  have hins := decodeInsns_eq item M out.insnsCount H ptr hf.insns fun h =>
    ⟨pushList_fst_eq [] ((H >>> 16).setWidth 16 :: (L.drop 2)) _
        (by simp [hL, insnsUnits_of_ne h]) (by simp),
      pushList_fst_eq [H.setWidth 16] (L.drop 2) _ (by simp [hL, insnsUnits_of_ne h])
        (by simp; omega)⟩
  have hR := decodePreHeader_eq item M _ out.registersSize R (ptr - (insnsUnits H).length)
    hf.registers fun h => pushList_fst_eq (insnsUnits H) (highUnits I ++ highUnits O ++ highUnits T)
      _ (by simp [hL, highUnits_of_ne h]) rfl
  have hI := decodePreHeader_eq item M _ out.insSize I
    (ptr - (insnsUnits H).length - (highUnits R).length) hf.ins fun h =>
      pushList_fst_eq (insnsUnits H ++ highUnits R) (highUnits O ++ highUnits T) _
        (by simp [hL, highUnits_of_ne h]) (by simp; omega)
  have hO := decodePreHeader_eq item M _ out.outsSize O
    (ptr - (insnsUnits H).length - (highUnits R).length - (highUnits I).length) hf.outs fun h =>
      pushList_fst_eq (insnsUnits H ++ highUnits R ++ highUnits I) (highUnits T) _
        (by simp [hL, highUnits_of_ne h]) (by simp; omega)
  have hT := decodePreHeader_eq item M _ out.triesSize T
    (ptr - (insnsUnits H).length - (highUnits R).length - (highUnits I).length -
      (highUnits O).length) hf.tries fun h =>
      pushList_fst_eq (insnsUnits H ++ highUnits R ++ highUnits I ++ highUnits O) [] _
        (by simp [hL, highUnits_of_ne h]) (by simp; omega)
  unfold decodePreHeaders
  simp only []
  rw [hins]
  cases k
  · simp only [Bool.not_false, if_true]
    rw [hR, hI, hO, hT]
  · rfl

/-- `HasAnyPreHeader` is false only when each flag it combines is. -/
theorem hasPreHeader_eq_false_of_hasAny (item : CodeItem) (flag : BitVec 16)
    (hflag : kFlagPreHeaderCombined &&& flag = flag)
    (h : hasAnyPreHeader item.insnsCountAndFlags = false) : item.hasPreHeader flag = false := by
  have h0 : item.insnsCountAndFlags &&& kFlagPreHeaderCombined = 0 := by
    simpa [hasAnyPreHeader] using h
  unfold hasPreHeader
  rw [← hflag, ← BitVec.and_assoc, h0]
  simp

/-- Without any flag, nothing was pushed. -/
theorem FlagsOf.eq_zero_of_hasAny {item : CodeItem} {H : BitVec 32} {R I O T : BitVec 16}
    (hf : FlagsOf item H R I O T) (h : hasAnyPreHeader item.insnsCountAndFlags = false) :
    H = 0 ∧ R = 0 ∧ I = 0 ∧ O = 0 ∧ T = 0 := by
  have hH := hf.insns
  have hR := hf.registers
  have hI := hf.ins
  have hO := hf.outs
  have hT := hf.tries
  rw [hasPreHeader_eq_false_of_hasAny item _ (by decide) h, eq_comm, bne_eq_false_iff_eq]
    at hH hR hI hO hT
  exact ⟨hH, hR, hI, hO, hT⟩

/-- `DecodeFields` on a code item whose flags match its pushed preheader: each field is its
nibble plus its high part, and `registers_size` has `ins_size` added back. -/
theorem decodeFields_pushList (k : Bool) (item : CodeItem) (H : BitVec 32) (R I O T : BitVec 16)
    (hf : FlagsOf item H R I O T) (out : Fields) :
    item.decodeFields k
        (pushList mem ptr (insnsUnits H ++ highUnits R ++ highUnits I ++ highUnits O ++
          highUnits T)).1 ptr out =
      if !k then
        { insnsCount := (item.insnsCountAndFlags >>> kInsnsSizeShift).setWidth 32 + H
          registersSize := ((item.fields >>> kRegistersSizeShift) &&& 0xF) + R +
            (((item.fields >>> kInsSizeShift) &&& 0xF) + I)
          insSize := ((item.fields >>> kInsSizeShift) &&& 0xF) + I
          outsSize := ((item.fields >>> kOutsSizeShift) &&& 0xF) + O
          triesSize := ((item.fields >>> kTriesSizeSizeShift) &&& 0xF) + T }
      else
        { out with
          insnsCount := (item.insnsCountAndFlags >>> kInsnsSizeShift).setWidth 32 + H } := by
  -- with or without `HasAnyPreHeader`, the result is that of the preheader reads
  have hany : ∀ out', (if hasAnyPreHeader item.insnsCountAndFlags then
      item.decodePreHeaders k (pushList mem ptr (insnsUnits H ++ highUnits R ++ highUnits I ++
        highUnits O ++ highUnits T)).1 ptr out' else out') =
      item.decodePreHeaders k (pushList mem ptr (insnsUnits H ++ highUnits R ++ highUnits I ++
        highUnits O ++ highUnits T)).1 ptr out' := by
    intro out'
    cases h : hasAnyPreHeader item.insnsCountAndFlags
    · obtain ⟨rfl, rfl, rfl, rfl, rfl⟩ := hf.eq_zero_of_hasAny h
      rw [decodePreHeaders_pushList k item _ _ _ _ _ out' hf]
      cases k <;> simp
    · rfl
  unfold decodeFields
  simp only []
  rw [hany, decodePreHeaders_pushList k item _ _ _ _ _ _ hf]
  cases k <;> rfl

theorem decodeFields_create (k : Bool) (r i o t : BitVec 16) (n : BitVec 32) (mem : CodeUnits)
    (p : Int) (out : Fields) :
    decodeFields k ⟨createFields r i o t, createFlags r i o t n⟩
        (pushList mem p (preheaderUnits r i o t n)).1 p out =
      if !k then ⟨n, r, i, o, t⟩ else { out with insnsCount := n } := by
  obtain ⟨hr, hi, ho, ht⟩ := createFields_nibbles r i o t
  rw [preheaderUnits, decodeFields_pushList k _ _ _ _ _ _ (flagsOf_create _ r i o t n) out]
  simp only [createFlags_insnsCount, hr, hi, ho, ht, nibble_add_sizeHigh]
  rw [BitVec.add_comm (insnsLow n), BitVec.sub_add_cancel, BitVec.sub_add_cancel]

end Decode

/-- `DecodeFields` reads back what `Create` wrote, with the code item where the preheader ends:
all five fields, or the instruction count alone.  `Create` writes only the units from the pointer
it returns up to `out_preheader`, at most `kMaxPreHeaderSize` of them, and sets the flag of each
field that does not fit its nibble, or its 11 bits for the count. -/
theorem create_decodeFields_round_trip (r i o t : BitVec 16) (n : BitVec 32) (mem : CodeUnits)
    (p : Int) (out : Fields) :
    let (item, mem', p') := create r i o t n mem p
    item.decodeFields false mem' p out = ⟨n, r, i, o, t⟩ ∧
    item.decodeFields true mem' p out = { out with insnsCount := n } ∧
    (∀ x, x < p' ∨ p ≤ x → mem' x = mem x) ∧ p' ≤ p ∧ p - p' ≤ kMaxPreHeaderSize ∧
    item.hasPreHeader kFlagPreHeaderInsnsSize = decide (2 ^ kInsnsSizeBits ≤ n.toNat) ∧
    item.hasPreHeader kFlagPreHeaderRegistersSize = decide (16 ≤ (r - i).toNat) ∧
    item.hasPreHeader kFlagPreHeaderInsSize = decide (16 ≤ i.toNat) ∧
    item.hasPreHeader kFlagPreHeaderOutsSize = decide (16 ≤ o.toNat) ∧
    item.hasPreHeader kFlagPreHeaderTriesSize = decide (16 ≤ t.toNat) := by
  rw [create_eq]
  have hf := flagsOf_create (createFields r i o t) r i o t n
  have hlen := length_preheaderUnits_le r i o t n
  simp only [pushList_snd]
  refine ⟨decodeFields_create false r i o t n mem p out,
    decodeFields_create true r i o t n mem p out, fun x hx => pushList_fst_of_not_mem _ hx,
    by omega, by simp [kMaxPreHeaderSize] at hlen ⊢; omega, ?_⟩
  rw [hf.insns, hf.registers, hf.ins, hf.outs, hf.tries, insnsHigh_bne_zero, sizeHigh_bne_zero,
    sizeHigh_bne_zero, sizeHigh_bne_zero, sizeHigh_bne_zero]
  exact ⟨rfl, rfl, rfl, rfl, rfl⟩

end CodeItem

end CompactDexFile

end Art
