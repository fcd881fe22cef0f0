import Art.Base.Leb128
import Art.Lib.Leb128

/-!
# LEB128 round trips

The decoders read any terminated run of at most five bytes as its value, the signed ones as its
two's complement value (`decodeUnsignedLeb128_of_holds`, `decodeSignedLeb128_of_holds`), and the
checked decoders are the plain ones when the run ends by `end` and fail otherwise
(`decodeUnsignedLeb128Checked_eq`).  The encoders write the shortest run of their argument
(`encodeUnsignedLeb128_eq`, `encodeSignedLeb128_eq`), whose length the size functions compute
(`unsignedLeb128Size_eq`, `signedLeb128Size_eq`).  `UpdateUnsignedLeb128` leaves the new number
stretched over the old run (`updateUnsignedLeb128_spec`).
-/

namespace Art

open ByteMemory Leb128

/-! ### Words -/

section Words

theorem toNat_readByte (mem : ByteMemory) (ptr : Nat) : (readByte mem ptr).toNat = (mem ptr).toNat := by
  rw [readByte, BitVec.toNat_setWidth]
  exact Nat.mod_eq_of_lt (Nat.lt_trans (mem ptr).isLt (by decide))

theorem lt_readByte_iff {mem : ByteMemory} {ptr : Nat} :
    (0x7f : BitVec 32) < readByte mem ptr ↔ 128 ≤ (mem ptr).toNat := by
  rw [BitVec.lt_def, toNat_readByte]
  exact Iff.rfl

theorem readByte_le_iff {mem : ByteMemory} {ptr : Nat} :
    readByte mem ptr ≤ (0x7f : BitVec 32) ↔ (mem ptr).toNat < 128 := by
  rw [BitVec.le_def, toNat_readByte]
  exact Nat.lt_succ_iff.symm

theorem toNat_and_0x7f (x : BitVec 32) : (x &&& 0x7f).toNat = x.toNat % 128 := by
  rw [BitVec.toNat_and, show (0x7f : BitVec 32).toNat = 2 ^ 7 - 1 from rfl,
    Nat.and_two_pow_sub_one_eq_mod]

/-- The first mask of a cascade, whose literal the `|` chain elaborates through `Nat`. -/
theorem toNat_and_natCast_0x7f (x : BitVec 32) :
    (x &&& ((127 : Nat) : BitVec 32)).toNat = x.toNat % 128 :=
  toNat_and_0x7f x

/-- An OR of a value below `2 ^ k` with a multiple of `2 ^ k` is their sum. -/
theorem toNat_or_eq_add {w k : Nat} {x y : BitVec w} (hx : x.toNat < 2 ^ k)
    (hy : 2 ^ k ∣ y.toNat) : (x ||| y).toNat = x.toNat + y.toNat := by
  obtain ⟨q, hq⟩ := hy
  rw [BitVec.toNat_or, hq, Nat.or_comm, ← Nat.two_pow_add_eq_or_of_lt hx, Nat.add_comm]

/-- One more group ORed in at bit `s`. -/
theorem toNat_or_group (acc c : BitVec 32) {s : Nat} (hs : s ≤ 21) (hacc : acc.toNat < 2 ^ s) :
    (acc ||| ((c &&& 0x7f) <<< s)).toNat = acc.toNat + c.toNat % 128 * 2 ^ s := by
  have hlt : c.toNat % 128 * 2 ^ s < 2 ^ 32 := by
    have h21 : 2 ^ s ≤ 2 ^ 21 := Nat.pow_le_pow_right (by decide) hs
    have := Nat.mod_lt c.toNat (show 0 < 128 by decide)
    calc c.toNat % 128 * 2 ^ s < 128 * 2 ^ s := Nat.mul_lt_mul_of_pos_right this (Nat.two_pow_pos s)
      _ ≤ 128 * 2 ^ 21 := Nat.mul_le_mul_left _ h21
      _ < 2 ^ 32 := by decide
  have hshift : ((c &&& 0x7f) <<< s).toNat = c.toNat % 128 * 2 ^ s := by
    rw [BitVec.toNat_shiftLeft, toNat_and_0x7f, Nat.shiftLeft_eq, Nat.mod_eq_of_lt hlt]
  rw [toNat_or_eq_add hacc (by rw [hshift]; exact Dvd.intro_left _ rfl), hshift]

/-- The fifth byte ORed in whole at bit 28: what falls off the word is lost. -/
theorem toNat_or_top (acc c : BitVec 32) (hacc : acc.toNat < 2 ^ 28) :
    (acc ||| (c <<< 28)).toNat = acc.toNat + c.toNat * 2 ^ 28 % 2 ^ 32 := by
  have hshift : (c <<< 28).toNat = c.toNat * 2 ^ 28 % 2 ^ 32 := by
    rw [BitVec.toNat_shiftLeft, Nat.shiftLeft_eq]
  rw [toNat_or_eq_add hacc ?_, hshift]
  rw [hshift]
  exact (Nat.dvd_mod_iff (by decide)).2 (Dvd.intro_left _ rfl)

/-- The shift pair `(x << k) >> k` sign-extends the low `32 - k` bits. -/
theorem toInt_signExtend (x : BitVec 32) {k : Nat} (hk : k < 32) (hx : x.toNat < 2 ^ (32 - k)) :
    ((x <<< k).sshiftRight k).toInt =
      if 2 * x.toNat < 2 ^ (32 - k) then (x.toNat : Int)
      else (x.toNat : Int) - ((2 ^ (32 - k) : Nat) : Int) := by
  have hpow : (2 : Nat) ^ 32 = 2 ^ (32 - k) * 2 ^ k := by
    rw [← Nat.pow_add, Nat.sub_add_cancel (Nat.le_of_lt hk)]
  have hmul : x.toNat * 2 ^ k < 2 ^ 32 := by
    rw [hpow]
    exact Nat.mul_lt_mul_of_pos_right hx (Nat.two_pow_pos k)
  have hshift : (x <<< k).toNat = x.toNat * 2 ^ k := by
    rw [BitVec.toNat_shiftLeft, Nat.shiftLeft_eq, Nat.mod_eq_of_lt hmul]
  have hk0 : (2 : Int) ^ k ≠ 0 := pow_ne_zero _ (by decide)
  rw [BitVec.toInt_sshiftRight, Int.shiftRight_eq_div_pow, BitVec.toInt_eq_toNat_cond, hshift]
  by_cases hs : 2 * x.toNat < 2 ^ (32 - k)
  · have hc : 2 * (x.toNat * 2 ^ k) < 2 ^ 32 := by
      rw [hpow, ← Nat.mul_assoc]
      exact Nat.mul_lt_mul_of_pos_right hs (Nat.two_pow_pos k)
    rw [if_pos hc, if_pos hs]
    push_cast
    exact Int.mul_ediv_cancel _ hk0
  · have hc : ¬2 * (x.toNat * 2 ^ k) < 2 ^ 32 := by
      rw [hpow, ← Nat.mul_assoc]
      exact fun h => hs (Nat.lt_of_mul_lt_mul_right h)
    rw [if_neg hc, if_neg hs, hpow]
    push_cast
    rw [← Int.sub_mul, Int.mul_ediv_cancel _ hk0]

end Words

/-! ### The decoders -/

section Decoders

variable {mem : ByteMemory} {ptr : Nat}

/-! The value the cascades build after two, three, four and five bytes. -/

theorem toNat_groups₂ :
    ((readByte mem ptr &&& 0x7f) ||| ((readByte mem (ptr + 1) &&& 0x7f) <<< 7)).toNat =
      value [mem ptr, mem (ptr + 1)] := by
  rw [toNat_or_group _ _ (by decide) (by rw [toNat_and_natCast_0x7f]; omega),
    toNat_and_natCast_0x7f, toNat_readByte, toNat_readByte]
  simp only [value_cons, value_nil]
  omega

theorem toNat_groups₃ :
    ((readByte mem ptr &&& 0x7f) ||| ((readByte mem (ptr + 1) &&& 0x7f) <<< 7) |||
        ((readByte mem (ptr + 2) &&& 0x7f) <<< 14)).toNat =
      value [mem ptr, mem (ptr + 1), mem (ptr + 2)] := by
  have hlt : value [mem ptr, mem (ptr + 1)] < 2 ^ 14 := (value_lt _).trans_eq (by simp)
  rw [toNat_or_group _ _ (by decide) (by rw [toNat_groups₂]; exact hlt), toNat_groups₂,
    toNat_readByte]
  simp only [value_cons, value_nil]
  omega

theorem toNat_groups₄ :
    ((readByte mem ptr &&& 0x7f) ||| ((readByte mem (ptr + 1) &&& 0x7f) <<< 7) |||
        ((readByte mem (ptr + 2) &&& 0x7f) <<< 14) |||
        ((readByte mem (ptr + 3) &&& 0x7f) <<< 21)).toNat =
      value [mem ptr, mem (ptr + 1), mem (ptr + 2), mem (ptr + 3)] := by
  have hlt : value [mem ptr, mem (ptr + 1), mem (ptr + 2)] < 2 ^ 21 :=
    (value_lt _).trans_eq (by simp)
  rw [toNat_or_group _ _ (by decide) (by rw [toNat_groups₃]; exact hlt), toNat_groups₃,
    toNat_readByte]
  simp only [value_cons, value_nil]
  omega

theorem toNat_groups₅ :
    ((readByte mem ptr &&& 0x7f) ||| ((readByte mem (ptr + 1) &&& 0x7f) <<< 7) |||
        ((readByte mem (ptr + 2) &&& 0x7f) <<< 14) |||
        ((readByte mem (ptr + 3) &&& 0x7f) <<< 21) ||| (readByte mem (ptr + 4) <<< 28)).toNat =
      value [mem ptr, mem (ptr + 1), mem (ptr + 2), mem (ptr + 3), mem (ptr + 4)] % 2 ^ 32 := by
  have hlt : value [mem ptr, mem (ptr + 1), mem (ptr + 2), mem (ptr + 3)] < 2 ^ 28 :=
    (value_lt _).trans_eq (by simp)
  have h4 := (mem (ptr + 4)).isLt
  rw [toNat_or_top _ _ (by rw [toNat_groups₄]; exact hlt), toNat_groups₄, toNat_readByte]
  simp only [value_cons, value_nil] at hlt ⊢
  omega

theorem value_mod_of_length_le {bytes : List (BitVec 8)} (h : bytes.length ≤ 4) :
    value bytes % 2 ^ 32 = value bytes := by
  have hlt := value_lt bytes
  have hpow : 128 ^ bytes.length ≤ 128 ^ 4 := Nat.pow_le_pow_right (by decide) h
  exact Nat.mod_eq_of_lt (by omega)

/-- The unsigned decoder reads a terminated run of at most five bytes as its value. -/
theorem decodeUnsignedLeb128_of_holds {bytes : List (BitVec 8)} (h : mem.Holds ptr bytes)
    (ht : Terminated bytes) (hlen : bytes.length ≤ 5) :
    decodeUnsignedLeb128 mem ptr = (BitVec.ofNat 32 (value bytes), ptr + bytes.length) := by
  obtain ⟨init, last, rfl, hinit, hlast⟩ := ht
  have hl : ¬(0x7f : BitVec 32) < readByte mem (ptr + init.length) := by
    rw [lt_readByte_iff, h init.length (by simp), List.getElem_append_right (Nat.le_refl _)]
    simpa using hlast
  have hc : ∀ i < init.length, (0x7f : BitVec 32) < readByte mem (ptr + i) := fun i hi => by
    rw [lt_readByte_iff, h i (by simp; omega), List.getElem_append_left hi]
    exact hinit _ (List.getElem_mem hi)
  rw [decodeUnsignedLeb128]
  dsimp only
  -- the continuation bits end the cascade after `init.length + 1` bytes
  match init, hlen, h, hl, hc with
  | [], _, h, hl, _ =>
    have h0 : mem ptr = last := h 0 (by simp)
    have e0 : ¬(0x7f : BitVec 32) < readByte mem ptr := hl
    rw [if_neg e0]
    refine Prod.ext (BitVec.eq_of_toNat_eq ?_) rfl
    rw [toNat_readByte, BitVec.toNat_ofNat, h0, value_mod_of_length_le (by simp)]
    simp only [List.nil_append, value_cons, value_nil]
    omega
  | [a], _, h, hl, hc =>
    have h0 : mem ptr = a := h 0 (by simp)
    have h1 : mem (ptr + 1) = last := h 1 (by simp)
    have c0 : (0x7f : BitVec 32) < readByte mem ptr := hc 0 (by simp)
    have e1 : ¬(0x7f : BitVec 32) < readByte mem (ptr + 1) := hl
    rw [if_pos c0, if_neg e1]
    refine Prod.ext (BitVec.eq_of_toNat_eq ?_) rfl
    rw [toNat_groups₂, BitVec.toNat_ofNat, h0, h1, value_mod_of_length_le (by simp)]
    rfl
  | [a, b], _, h, hl, hc =>
    have h0 : mem ptr = a := h 0 (by simp)
    have h1 : mem (ptr + 1) = b := h 1 (by simp)
    have h2 : mem (ptr + 2) = last := h 2 (by simp)
    have c0 : (0x7f : BitVec 32) < readByte mem ptr := hc 0 (by simp)
    have c1 : (0x7f : BitVec 32) < readByte mem (ptr + 1) := hc 1 (by simp)
    have e2 : ¬(0x7f : BitVec 32) < readByte mem (ptr + 2) := hl
    rw [if_pos c0, if_pos c1, if_neg e2]
    refine Prod.ext (BitVec.eq_of_toNat_eq ?_) rfl
    rw [toNat_groups₃, BitVec.toNat_ofNat, h0, h1, h2, value_mod_of_length_le (by simp)]
    rfl
  | [a, b, c], _, h, hl, hc =>
    have h0 : mem ptr = a := h 0 (by simp)
    have h1 : mem (ptr + 1) = b := h 1 (by simp)
    have h2 : mem (ptr + 2) = c := h 2 (by simp)
    have h3 : mem (ptr + 3) = last := h 3 (by simp)
    have c0 : (0x7f : BitVec 32) < readByte mem ptr := hc 0 (by simp)
    have c1 : (0x7f : BitVec 32) < readByte mem (ptr + 1) := hc 1 (by simp)
    have c2 : (0x7f : BitVec 32) < readByte mem (ptr + 2) := hc 2 (by simp)
    have e3 : ¬(0x7f : BitVec 32) < readByte mem (ptr + 3) := hl
    rw [if_pos c0, if_pos c1, if_pos c2, if_neg e3]
    refine Prod.ext (BitVec.eq_of_toNat_eq ?_) rfl
    rw [toNat_groups₄, BitVec.toNat_ofNat, h0, h1, h2, h3, value_mod_of_length_le (by simp)]
    rfl
  | [a, b, c, d], _, h, _, hc =>
    have h0 : mem ptr = a := h 0 (by simp)
    have h1 : mem (ptr + 1) = b := h 1 (by simp)
    have h2 : mem (ptr + 2) = c := h 2 (by simp)
    have h3 : mem (ptr + 3) = d := h 3 (by simp)
    have h4 : mem (ptr + 4) = last := h 4 (by simp)
    have c0 : (0x7f : BitVec 32) < readByte mem ptr := hc 0 (by simp)
    have c1 : (0x7f : BitVec 32) < readByte mem (ptr + 1) := hc 1 (by simp)
    have c2 : (0x7f : BitVec 32) < readByte mem (ptr + 2) := hc 2 (by simp)
    have c3 : (0x7f : BitVec 32) < readByte mem (ptr + 3) := hc 3 (by simp)
    rw [if_pos c0, if_pos c1, if_pos c2, if_pos c3]
    refine Prod.ext (BitVec.eq_of_toNat_eq ?_) rfl
    rw [toNat_groups₅, BitVec.toNat_ofNat, h0, h1, h2, h3, h4]
    rfl
  | _ :: _ :: _ :: _ :: _ :: _, hlen, _, _, _ =>
    simp only [List.length_cons, List.length_append, List.length_nil] at hlen
    omega

/-- The shift pair that ends a signed cascade of `bytes` gives their two's complement value. -/
theorem signExtend_eq_ofInt {acc : BitVec 32} {bytes : List (BitVec 8)}
    (hacc : acc.toNat = value bytes) {k : Nat} (hk : k < 32) (hlen : 32 - k = 7 * bytes.length) :
    (acc <<< k).sshiftRight k = BitVec.ofInt 32 (signedValue bytes) := by
  have hpow : (128 : Nat) ^ bytes.length = 2 ^ (32 - k) := by
    rw [hlen, Nat.pow_mul]
  have hlt : acc.toNat < 2 ^ (32 - k) := by
    rw [hacc, ← hpow]
    exact value_lt bytes
  have hbound : 2 ^ (32 - k) ≤ 2 ^ 32 := Nat.pow_le_pow_right (by decide) (Nat.sub_le _ _)
  apply BitVec.eq_of_toInt_eq
  have hpowI : (128 : Int) ^ bytes.length = ((2 ^ (32 - k) : Nat) : Int) := by exact_mod_cast hpow
  rw [toInt_signExtend acc hk hlt, BitVec.toInt_ofInt, signedValue, hpow, hpowI, ← hacc]
  -- both values lie in `int32_t`, where `bmod` changes nothing
  split_ifs <;> symm <;> apply Int.bmod_eq_of_le <;> omega

/-- The signed decoder reads a terminated run of at most five bytes as its two's complement
value: a shorter one sign-extended, five bytes as they fill the word. -/
theorem decodeSignedLeb128_of_holds {bytes : List (BitVec 8)} (h : mem.Holds ptr bytes)
    (ht : Terminated bytes) (hlen : bytes.length ≤ 5) :
    decodeSignedLeb128 mem ptr = (BitVec.ofInt 32 (signedValue bytes), ptr + bytes.length) := by
  obtain ⟨init, last, rfl, hinit, hlast⟩ := ht
  have hl : readByte mem (ptr + init.length) ≤ (0x7f : BitVec 32) := by
    rw [readByte_le_iff, h init.length (by simp), List.getElem_append_right (Nat.le_refl _)]
    simpa using hlast
  have hc : ∀ i < init.length, ¬readByte mem (ptr + i) ≤ (0x7f : BitVec 32) := fun i hi => by
    rw [readByte_le_iff, h i (by simp; omega), List.getElem_append_left hi, Nat.not_lt]
    exact hinit _ (List.getElem_mem hi)
  rw [decodeSignedLeb128]
  dsimp only
  match init, hlen, h, hl, hc with
  | [], _, h, hl, _ =>
    have h0 : mem ptr = last := h 0 (by simp)
    have e0 : readByte mem ptr ≤ (0x7f : BitVec 32) := hl
    rw [if_pos e0]
    refine Prod.ext (signExtend_eq_ofInt ?_ (by decide) (by simp)) rfl
    rw [toNat_readByte, h0]
    simp only [List.nil_append, value_cons, value_nil]
    omega
  | [a], _, h, hl, hc =>
    have h0 : mem ptr = a := h 0 (by simp)
    have h1 : mem (ptr + 1) = last := h 1 (by simp)
    have c0 : ¬readByte mem ptr ≤ (0x7f : BitVec 32) := hc 0 (by simp)
    have e1 : readByte mem (ptr + 1) ≤ (0x7f : BitVec 32) := hl
    rw [if_neg c0, if_pos e1]
    refine Prod.ext (signExtend_eq_ofInt ?_ (by decide) (by simp)) rfl
    rw [toNat_groups₂, h0, h1]
    rfl
  | [a, b], _, h, hl, hc =>
    have h0 : mem ptr = a := h 0 (by simp)
    have h1 : mem (ptr + 1) = b := h 1 (by simp)
    have h2 : mem (ptr + 2) = last := h 2 (by simp)
    have c0 : ¬readByte mem ptr ≤ (0x7f : BitVec 32) := hc 0 (by simp)
    have c1 : ¬readByte mem (ptr + 1) ≤ (0x7f : BitVec 32) := hc 1 (by simp)
    have e2 : readByte mem (ptr + 2) ≤ (0x7f : BitVec 32) := hl
    rw [if_neg c0, if_neg c1, if_pos e2]
    refine Prod.ext (signExtend_eq_ofInt ?_ (by decide) (by simp)) rfl
    rw [toNat_groups₃, h0, h1, h2]
    rfl
  | [a, b, c], _, h, hl, hc =>
    have h0 : mem ptr = a := h 0 (by simp)
    have h1 : mem (ptr + 1) = b := h 1 (by simp)
    have h2 : mem (ptr + 2) = c := h 2 (by simp)
    have h3 : mem (ptr + 3) = last := h 3 (by simp)
    have c0 : ¬readByte mem ptr ≤ (0x7f : BitVec 32) := hc 0 (by simp)
    have c1 : ¬readByte mem (ptr + 1) ≤ (0x7f : BitVec 32) := hc 1 (by simp)
    have c2 : ¬readByte mem (ptr + 2) ≤ (0x7f : BitVec 32) := hc 2 (by simp)
    have e3 : readByte mem (ptr + 3) ≤ (0x7f : BitVec 32) := hl
    rw [if_neg c0, if_neg c1, if_neg c2, if_pos e3]
    refine Prod.ext (signExtend_eq_ofInt ?_ (by decide) (by simp)) rfl
    rw [toNat_groups₄, h0, h1, h2, h3]
    rfl
  | [a, b, c, d], _, h, _, hc =>
    have h0 : mem ptr = a := h 0 (by simp)
    have h1 : mem (ptr + 1) = b := h 1 (by simp)
    have h2 : mem (ptr + 2) = c := h 2 (by simp)
    have h3 : mem (ptr + 3) = d := h 3 (by simp)
    have h4 : mem (ptr + 4) = last := h 4 (by simp)
    have c0 : ¬readByte mem ptr ≤ (0x7f : BitVec 32) := hc 0 (by simp)
    have c1 : ¬readByte mem (ptr + 1) ≤ (0x7f : BitVec 32) := hc 1 (by simp)
    have c2 : ¬readByte mem (ptr + 2) ≤ (0x7f : BitVec 32) := hc 2 (by simp)
    have c3 : ¬readByte mem (ptr + 3) ≤ (0x7f : BitVec 32) := hc 3 (by simp)
    rw [if_neg c0, if_neg c1, if_neg c2, if_neg c3]
    -- five bytes fill the word: the sign is the top bit the fifth byte puts there
    refine Prod.ext (BitVec.eq_of_toNat_eq ?_) rfl
    have hv := value_lt ([a, b, c, d] ++ [last])
    rw [toNat_groups₅, BitVec.toNat_ofInt, h0, h1, h2, h3, h4, signedValue]
    simp only [List.cons_append, List.nil_append, List.length_cons, List.length_nil] at hv ⊢
    split_ifs <;> omega
  | _ :: _ :: _ :: _ :: _ :: _, hlen, _, _, _ =>
    simp only [List.length_cons, List.length_append, List.length_nil] at hlen
    omega

/-- The checked unsigned decoder is the plain one when the run it reads ends by `end_`, and
fails, moving nothing, otherwise. -/
theorem decodeUnsignedLeb128Checked_eq (mem : ByteMemory) (ptr end_ : Nat) :
    decodeUnsignedLeb128Checked mem ptr end_ =
      if (decodeUnsignedLeb128 mem ptr).2 ≤ end_ then some (decodeUnsignedLeb128 mem ptr)
      else none := by
  rw [decodeUnsignedLeb128Checked, decodeUnsignedLeb128]
  dsimp only
  split_ifs <;> first | rfl | omega

/-- The checked signed decoder is the plain one when the run it reads ends by `end_`. -/
theorem decodeSignedLeb128Checked_eq (mem : ByteMemory) (ptr end_ : Nat) :
    decodeSignedLeb128Checked mem ptr end_ =
      if (decodeSignedLeb128 mem ptr).2 ≤ end_ then some (decodeSignedLeb128 mem ptr) else none := by
  rw [decodeSignedLeb128Checked, decodeSignedLeb128]
  dsimp only
  split_ifs <;> first | rfl | omega

end Decoders

/-! ### The encoders -/

section Encoders

theorem toNat_setWidth_and_0x7f (x : BitVec 32) : ((x &&& 0x7f).setWidth 8).toNat = x.toNat % 128 := by
  rw [BitVec.toNat_setWidth, toNat_and_0x7f]
  omega

/-- Writing a group with the continuation bit is writing its byte of a longer run. -/
theorem or_0x80_eq_ofNat {out : BitVec 8} (hout : out.toNat < 128) :
    out ||| 0x80 = BitVec.ofNat 8 (out.toNat + 128) := by
  apply BitVec.eq_of_toNat_eq
  rw [toNat_or_0x80, toNat_ofNat_of_lt (by omega)]
  omega

theorem toNat_group_add_rest (value : BitVec 32) :
    ((value &&& 0x7f).setWidth 8).toNat + 128 * (value >>> 7).toNat = value.toNat := by
  rw [toNat_setWidth_and_0x7f, BitVec.toNat_ushiftRight, Nat.shiftRight_eq_div_pow]
  omega

/-- A pending group with nonzero bits above it is a continuation byte of the run. -/
theorem encode_group_add_rest {out : BitVec 8} {value : BitVec 32} (hout : out.toNat < 128)
    (hv : value ≠ 0) :
    encode (out.toNat + 128 * value.toNat) = (out ||| 0x80) :: encode value.toNat := by
  have hv0 : value.toNat ≠ 0 := fun h => hv (BitVec.eq_of_toNat_eq h)
  rw [encode_of_le (by omega), or_0x80_eq_ofNat hout]
  congr 2 <;> omega

/-- A pending group with nothing above it is the last byte. -/
theorem encode_group {out : BitVec 8} (hout : out.toNat < 128) : encode out.toNat = [out] := by
  rw [encode_of_lt hout, BitVec.ofNat_toNat, BitVec.setWidth_eq]

theorem toNat_eq_zero_of_not_ne {value : BitVec 32} (hv : ¬value ≠ 0) : value.toNat = 0 := by
  rw [not_not.1 hv]
  rfl

/-- The unsigned loop writes the shortest run of the number that its pending group `out` and
the bits above it make. -/
theorem encodeUnsignedLeb128Loop_eq (mem : ByteMemory) (dest : Nat) (out : BitVec 8)
    (value : BitVec 32) (hout : out.toNat < 128) :
    encodeUnsignedLeb128Loop mem dest out value =
      (mem.write dest (encode (out.toNat + 128 * value.toNat)),
        dest + (encode (out.toNat + 128 * value.toNat)).length) := by
  revert hout
  fun_induction encodeUnsignedLeb128Loop mem dest out value with
  | case1 mem dest out value hv ih =>
    intro hout
    rw [ih (by rw [toNat_setWidth_and_0x7f]; omega), toNat_group_add_rest,
      encode_group_add_rest hout hv, List.length_cons]
    refine Prod.ext rfl ?_
    show dest + 1 + _ = _
    omega
  | case2 mem dest out value hv =>
    intro hout
    simp only [toNat_eq_zero_of_not_ne hv, Nat.mul_zero, Nat.add_zero]
    rw [encode_group hout]
    rfl

theorem encodeUnsignedLeb128_eq (mem : ByteMemory) (dest : Nat) (value : BitVec 32) :
    encodeUnsignedLeb128 mem dest value =
      (mem.write dest (encode value.toNat), dest + (encode value.toNat).length) := by
  rw [encodeUnsignedLeb128, encodeUnsignedLeb128Loop_eq _ _ _ _ (by
    rw [toNat_setWidth_and_0x7f]; omega), toNat_group_add_rest]

theorem encodeUnsignedLeb128VectorLoop_eq (dest : List (BitVec 8)) (out : BitVec 8)
    (value : BitVec 32) (hout : out.toNat < 128) :
    encodeUnsignedLeb128VectorLoop dest out value = dest ++ encode (out.toNat + 128 * value.toNat) := by
  revert hout
  fun_induction encodeUnsignedLeb128VectorLoop dest out value with
  | case1 dest out value hv ih =>
    intro hout
    rw [ih (by rw [toNat_setWidth_and_0x7f]; omega), toNat_group_add_rest,
      encode_group_add_rest hout hv, List.append_assoc]
    rfl
  | case2 dest out value hv =>
    intro hout
    simp only [toNat_eq_zero_of_not_ne hv, Nat.mul_zero, Nat.add_zero]
    rw [encode_group hout]

/-- The vector encoder pushes the shortest run. -/
theorem encodeUnsignedLeb128Vector_eq (dest : List (BitVec 8)) (value : BitVec 32) :
    encodeUnsignedLeb128Vector dest value = dest ++ encode value.toNat := by
  rw [encodeUnsignedLeb128Vector, encodeUnsignedLeb128VectorLoop_eq _ _ _ (by
    rw [toNat_setWidth_and_0x7f]; omega), toNat_group_add_rest]

/-! The signed encoders stop when the bits above the pending group are all the sign:
`value ^ (value >> 31)` is the value, or its complement for a negative one. -/

theorem sshiftRight_31 (v : BitVec 32) :
    v.sshiftRight 31 = if 2 ^ 31 ≤ v.toNat then BitVec.allOnes 32 else 0#32 := by
  have hlt := v.isLt
  have h32 : (2 : Nat) ^ 32 = 4294967296 := rfl
  apply BitVec.eq_of_toNat_eq
  rw [BitVec.toNat_sshiftRight, BitVec.msb_eq_decide, Nat.shiftRight_eq_div_pow,
    Nat.shiftRight_eq_div_pow]
  by_cases hm : 2 ^ 31 ≤ v.toNat
  · rw [if_pos (decide_eq_true hm), if_pos hm, BitVec.toNat_allOnes, h32]
    omega
  · rw [if_neg (fun h => hm (of_decide_eq_true h)), if_neg hm, BitVec.toNat_zero, h32] at *
    omega

theorem toNat_xor_sshiftRight_31 (v : BitVec 32) :
    ((v ^^^ v.sshiftRight 31).toNat : Int) = if 0 ≤ v.toInt then v.toInt else -v.toInt - 1 := by
  have hlt := v.isLt
  rw [sshiftRight_31, BitVec.toInt_eq_toNat_cond]
  by_cases hm : 2 ^ 31 ≤ v.toNat
  · rw [if_pos hm, BitVec.xor_allOnes, BitVec.toNat_not, if_neg (by omega)]
    push_cast
    split_ifs <;> omega
  · rw [if_neg hm, BitVec.xor_zero, if_pos (by omega), if_pos (by omega)]

theorem toInt_sshiftRight_7 (v : BitVec 32) : (v.sshiftRight 7).toInt = v.toInt / 128 := by
  rw [BitVec.toInt_sshiftRight, Int.shiftRight_eq_div_pow]
  rfl

/-- The group a signed encoder writes is the value's low seven bits. -/
theorem toNat_group_eq_emod (v : BitVec 32) :
    (((v &&& 0x7f).setWidth 8).toNat : Int) = v.toInt % 128 := by
  rw [toNat_setWidth_and_0x7f, BitVec.toInt_eq_toNat_cond]
  split_ifs <;> omega

theorem encodeSigned_group_add_rest (v : BitVec 32) (hv : 64 ≤ (v ^^^ v.sshiftRight 31).toNat) :
    encodeSigned v.toInt =
      ((v &&& 0x7f).setWidth 8 ||| 0x80) :: encodeSigned (v.sshiftRight 7).toInt := by
  have hmag := toNat_xor_sshiftRight_31 v
  have hg := toNat_group_eq_emod v
  rw [encodeSigned_of_large (by split_ifs at hmag <;> omega), toInt_sshiftRight_7]
  congr 1
  apply BitVec.eq_of_toNat_eq
  rw [toNat_or_0x80]
  have := toNat_group_add (v.toInt)
  omega

theorem encodeSigned_group (v : BitVec 32) (hv : (v ^^^ v.sshiftRight 31).toNat < 64) :
    encodeSigned v.toInt = [(v &&& 0x7f).setWidth 8] := by
  have hmag := toNat_xor_sshiftRight_31 v
  have hg := toNat_group_eq_emod v
  rw [encodeSigned_of_small (by split_ifs at hmag <;> omega)]
  congr 1
  apply BitVec.eq_of_toNat_eq
  have := toNat_group v.toInt
  omega

/-- Shifting the value by seven shifts the bits that differ from the sign by seven. -/
theorem toNat_xor_sshiftRight_31_step (v : BitVec 32) :
    ((v.sshiftRight 7) ^^^ (v.sshiftRight 7).sshiftRight 31).toNat =
      (v ^^^ v.sshiftRight 31).toNat / 128 := by
  have h := toNat_xor_sshiftRight_31 v
  have h' := toNat_xor_sshiftRight_31 (v.sshiftRight 7)
  rw [toInt_sshiftRight_7] at h'
  have : (((v ^^^ v.sshiftRight 31).toNat / 128 : Nat) : Int) =
      ((v ^^^ v.sshiftRight 31).toNat : Int) / 128 := by push_cast; rfl
  split_ifs at h h' <;> omega

/-- The signed loop writes the shortest signed run of its value, given the pending group and the
bits above it that differ from the sign. -/
theorem encodeSignedLeb128Loop_eq (mem : ByteMemory) (dest : Nat) (value : BitVec 32)
    (out : BitVec 8) (extraBits : BitVec 32) (hout : out = (value &&& 0x7f).setWidth 8)
    (hextra : extraBits.toNat = (value ^^^ value.sshiftRight 31).toNat / 64) :
    encodeSignedLeb128Loop mem dest value out extraBits =
      (mem.write dest (encodeSigned value.toInt), dest + (encodeSigned value.toInt).length) := by
  revert hout hextra
  fun_induction encodeSignedLeb128Loop mem dest value out extraBits with
  | case1 mem dest value out extraBits hv value' ih =>
    intro hout hextra
    have hv0 : extraBits.toNat ≠ 0 := fun h => hv (BitVec.eq_of_toNat_eq h)
    have hextra' : (extraBits >>> 7).toNat = (value' ^^^ value'.sshiftRight 31).toNat / 64 := by
      rw [BitVec.toNat_ushiftRight, Nat.shiftRight_eq_div_pow, toNat_xor_sshiftRight_31_step, hextra]
      omega
    rw [ih rfl hextra', encodeSigned_group_add_rest value (by omega), ← hout, List.length_cons]
    refine Prod.ext rfl ?_
    show dest + 1 + (encodeSigned (value.sshiftRight 7).toInt).length = _
    omega
  | case2 mem dest value out extraBits hv =>
    intro hout hextra
    rw [toNat_eq_zero_of_not_ne hv] at hextra
    rw [encodeSigned_group value (by omega), ← hout]
    rfl

theorem encodeSignedLeb128_eq (mem : ByteMemory) (dest : Nat) (value : BitVec 32) :
    encodeSignedLeb128 mem dest value =
      (mem.write dest (encodeSigned value.toInt), dest + (encodeSigned value.toInt).length) := by
  rw [encodeSignedLeb128, encodeSignedLeb128Loop_eq _ _ _ _ _ rfl (by
    rw [BitVec.toNat_ushiftRight, Nat.shiftRight_eq_div_pow])]

theorem encodeSignedLeb128VectorLoop_eq (dest : List (BitVec 8)) (value : BitVec 32)
    (out : BitVec 8) (extraBits : BitVec 32) (hout : out = (value &&& 0x7f).setWidth 8)
    (hextra : extraBits.toNat = (value ^^^ value.sshiftRight 31).toNat / 64) :
    encodeSignedLeb128VectorLoop dest value out extraBits = dest ++ encodeSigned value.toInt := by
  revert hout hextra
  fun_induction encodeSignedLeb128VectorLoop dest value out extraBits with
  | case1 dest value out extraBits hv value' ih =>
    intro hout hextra
    have hv0 : extraBits.toNat ≠ 0 := fun h => hv (BitVec.eq_of_toNat_eq h)
    have hextra' : (extraBits >>> 7).toNat = (value' ^^^ value'.sshiftRight 31).toNat / 64 := by
      rw [BitVec.toNat_ushiftRight, Nat.shiftRight_eq_div_pow, toNat_xor_sshiftRight_31_step, hextra]
      omega
    rw [ih rfl hextra', encodeSigned_group_add_rest value (by omega), ← hout, List.append_assoc]
    rfl
  | case2 dest value out extraBits hv =>
    intro hout hextra
    rw [toNat_eq_zero_of_not_ne hv] at hextra
    rw [encodeSigned_group value (by omega), ← hout]

theorem encodeSignedLeb128Vector_eq (dest : List (BitVec 8)) (value : BitVec 32) :
    encodeSignedLeb128Vector dest value = dest ++ encodeSigned value.toInt := by
  rw [encodeSignedLeb128Vector, encodeSignedLeb128VectorLoop_eq _ _ _ _ rfl (by
    rw [BitVec.toNat_ushiftRight, Nat.shiftRight_eq_div_pow])]

/-- The vector encoders push the bytes the pointer encoders write: the shortest unsigned run of
`value`, and the shortest signed run of its `int32_t` value. -/
theorem leb128_vector_encoders (mem : ByteMemory) (ptr : Nat) (dest : List (BitVec 8))
    (value : BitVec 32) :
    (encodeUnsignedLeb128 mem ptr value =
        (mem.write ptr (encode value.toNat), ptr + (encode value.toNat).length) ∧
      encodeUnsignedLeb128Vector dest value = dest ++ encode value.toNat) ∧
    (encodeSignedLeb128 mem ptr value =
        (mem.write ptr (encodeSigned value.toInt), ptr + (encodeSigned value.toInt).length) ∧
      encodeSignedLeb128Vector dest value = dest ++ encodeSigned value.toInt) :=
  ⟨⟨encodeUnsignedLeb128_eq mem ptr value, encodeUnsignedLeb128Vector_eq dest value⟩,
    encodeSignedLeb128_eq mem ptr value, encodeSignedLeb128Vector_eq dest value⟩

end Encoders

/-! ### The sizes -/

section Sizes

theorem toNat_or_one (x : BitVec 32) : (x ||| 1).toNat = 2 * (x.toNat / 2) + 1 := by
  rw [BitVec.toNat_or, show (1 : BitVec 32).toNat = 1 from rfl]
  generalize x.toNat = n
  have hbit : n % 2 ||| 1 = 1 := by
    rcases Nat.mod_two_eq_zero_or_one n with h | h <;> rw [h] <;> rfl
  calc n ||| 1 = (2 ^ 1 * (n / 2) ||| n % 2) ||| 1 := by
        rw [← Nat.two_pow_add_eq_or_of_lt (Nat.mod_lt _ (by decide))]
        congr 1
        omega
    _ = 2 ^ 1 * (n / 2) ||| 1 := by rw [Nat.lor_assoc, hbit]
    _ = 2 * (n / 2) + 1 := by rw [← Nat.two_pow_add_eq_or_of_lt (by decide), Nat.pow_one]

/-- `CLZ(x | 1)` finds the top bit of `x`, or bit 0 for a word below 2. -/
theorem clz_or_one_bounds (x : BitVec 32) :
    clz (x ||| 1) ≤ 31 ∧ x.toNat < 2 ^ (32 - clz (x ||| 1)) ∧
      (clz (x ||| 1) < 31 → 2 ^ (31 - clz (x ||| 1)) ≤ x.toNat) := by
  have hor := toNat_or_one x
  have hne : x ||| 1 ≠ 0#32 := fun h => by
    rw [h, BitVec.toNat_zero] at hor
    omega
  have hlo := BitVec.two_pow_sub_clz_le_toNat_of_ne_zero (by decide) hne
  have hhi := BitVec.toNat_lt_two_pow_sub_clz (x := x ||| 1)
  have hle : (x ||| 1).clz.toNat ≤ 32 := BitVec.le_def.1 BitVec.clz_le
  unfold clz
  rw [hor] at hlo hhi
  refine ⟨?_, by omega, fun hc => ?_⟩
  · -- a word of no bits would be zero
    by_contra h
    rw [show 32 - (x ||| 1).clz.toNat = 0 by omega, Nat.pow_zero] at hhi
    omega
  · have hpow : 2 ^ (31 - (x ||| 1).clz.toNat) = 2 * 2 ^ (30 - (x ||| 1).clz.toNat) := by
      rw [← Nat.pow_succ']
      congr 1
      omega
    rw [hpow] at hlo ⊢
    omega

theorem pow_128 (j : Nat) : 128 ^ j = 2 ^ (7 * j) := by
  rw [Nat.pow_mul]

/-- `UnsignedLeb128Size` is the length of the shortest run: `(x * 37) >> 8` is `ceil(x / 7)`
for the bit lengths a word has. -/
theorem unsignedLeb128Size_eq (v : BitVec 32) : unsignedLeb128Size v = (encode v.toNat).length := by
  obtain ⟨hc, hhi, hlo⟩ := clz_or_one_bounds v
  unfold unsignedLeb128Size
  rw [Nat.shiftRight_eq_div_pow]
  generalize clz (v ||| 1) = c at hc hhi hlo ⊢
  have hm : 0 < (6 + 32 - c) * 37 / 2 ^ 8 := by omega
  -- at most `m` bytes: the number is below `2 ^ (7 * m)`
  have hle : (encode v.toNat).length ≤ (6 + 32 - c) * 37 / 2 ^ 8 := by
    rw [length_encode_le_iff hm, pow_128]
    exact Nat.lt_of_lt_of_le hhi (Nat.pow_le_pow_right (by decide) (by omega))
  refine Nat.le_antisymm ?_ hle
  by_contra hlt
  -- fewer bytes would need a number below `2 ^ (7 * (m - 1))`, at most its top bit
  have hm2 : 0 < (encode v.toNat).length := List.length_pos_iff.2 (terminated_encode _).ne_nil
  have hsmall := (length_encode_le_iff hm2 v.toNat).1 (Nat.le_refl _)
  rw [pow_128] at hsmall
  have htop := hlo (by omega)
  have : 2 ^ (7 * (encode v.toNat).length) ≤ 2 ^ (31 - c) :=
    Nat.pow_le_pow_right (by decide) (by omega)
  omega

/-- A signed value fits in `7 * k` bits exactly when the bits that differ from its sign are
below `2 ^ (7 * k - 1)`. -/
theorem length_encodeSigned_le_iff_xor {k : Nat} (hk : 0 < k) (v : BitVec 32) :
    (encodeSigned v.toInt).length ≤ k ↔ (v ^^^ v.sshiftRight 31).toNat < 64 * 128 ^ (k - 1) := by
  have hmag := toNat_xor_sshiftRight_31 v
  rw [length_encodeSigned_le_iff hk]
  have : ((64 * 128 ^ (k - 1) : Nat) : Int) = 64 * 128 ^ (k - 1) := by push_cast; rfl
  split_ifs at hmag <;> omega

/-- `SignedLeb128Size` is the length of the shortest signed run. -/
theorem signedLeb128Size_eq (v : BitVec 32) : signedLeb128Size v = (encodeSigned v.toInt).length := by
  obtain ⟨hc, hhi, hlo⟩ := clz_or_one_bounds (v ^^^ v.sshiftRight 31)
  unfold signedLeb128Size
  rw [Nat.shiftRight_eq_div_pow]
  generalize clz ((v ^^^ v.sshiftRight 31) ||| 1) = c at hc hhi hlo ⊢
  have hm : 0 < (1 + 6 + 32 - c) * 37 / 2 ^ 8 := by omega
  have h64 : ∀ j, 64 * 128 ^ j = 2 ^ (7 * j + 6) := fun j => by
    rw [pow_128, Nat.pow_add, Nat.mul_comm]
  have hle : (encodeSigned v.toInt).length ≤ (1 + 6 + 32 - c) * 37 / 2 ^ 8 := by
    rw [length_encodeSigned_le_iff_xor hm, h64]
    exact Nat.lt_of_lt_of_le hhi (Nat.pow_le_pow_right (by decide) (by omega))
  refine Nat.le_antisymm ?_ hle
  by_contra hlt
  have hm2 : 0 < (encodeSigned v.toInt).length := List.length_pos_iff.2 (encodeSigned_ne_nil _)
  have hsmall := (length_encodeSigned_le_iff_xor hm2 v).1 (Nat.le_refl _)
  rw [h64] at hsmall
  have htop := hlo (by omega)
  have : 2 ^ (7 * ((encodeSigned v.toInt).length - 1) + 6) ≤ 2 ^ (31 - c) :=
    Nat.pow_le_pow_right (by decide) (by omega)
  omega

theorem length_encode_le_five (v : BitVec 32) : (encode v.toNat).length ≤ 5 :=
  (length_encode_le_iff (by decide) v.toNat).2 (Nat.lt_trans v.isLt (by decide))

theorem length_encodeSigned_le_five (v : BitVec 32) : (encodeSigned v.toInt).length ≤ 5 := by
  have hlo := BitVec.le_toInt v
  have hhi := BitVec.toInt_lt (x := v)
  have h31 : (2 : Int) ^ (32 - 1) = 2147483648 := rfl
  have h34 : (64 : Int) * 128 ^ (5 - 1) = 17179869184 := rfl
  rw [length_encodeSigned_le_iff (by decide), h34]
  rw [h31] at hlo hhi
  constructor <;> omega

end Sizes

/-! ### Updating in place -/

section Update

/-- One round of the padding loop over a run: its last byte gets the continuation bit and a zero
byte follows. -/
theorem holds_padRound {mem : ByteMemory} {dest : Nat} {init : List (BitVec 8)} {last : BitVec 8}
    (h : mem.Holds dest (init ++ [last])) :
    ByteMemory.Holds
      (Function.update (Function.update mem (dest + init.length) (mem (dest + init.length) ||| 0x80))
        (dest + init.length + 1) 0) dest (init ++ [last ||| 0x80, 0]) := by
  obtain ⟨hinit, hlast⟩ := (holds_append_iff _).1 h
  have hlast' : mem (dest + init.length) = last := ((holds_cons_iff _).1 hlast).1
  rw [holds_append_iff, holds_cons_iff, holds_cons_iff]
  refine ⟨hinit.congr fun i hi => ?_, ?_, Function.update_self _ _ _, holds_nil _ _⟩
  · have h1 : dest + i ≠ dest + init.length + 1 := by omega
    have h2 : dest + i ≠ dest + init.length := by omega
    rw [Function.update_of_ne h1, Function.update_of_ne h2]
  · rw [Function.update_of_ne (Nat.ne_of_lt (Nat.lt_succ_self _)), Function.update_self, hlast']

/-- The padding loop stretches the run that ends at `end_` to `oldEnd` and writes nothing
outside it.  By the loop's induction: each round stretches the run by one byte. -/
theorem updateUnsignedLeb128Loop_spec (mem : ByteMemory) (end_ oldEnd : Nat) {dest : Nat}
    {bytes : List (BitVec 8)} (h : mem.Holds dest bytes) (ht : Terminated bytes)
    (hend : dest + bytes.length = end_) (hle : end_ ≤ oldEnd) :
    (updateUnsignedLeb128Loop mem end_ oldEnd).Holds dest (lengthen bytes (oldEnd - dest)) ∧
      ∀ a, a < dest ∨ oldEnd ≤ a → updateUnsignedLeb128Loop mem end_ oldEnd a = mem a := by
  fun_induction updateUnsignedLeb128Loop mem end_ oldEnd generalizing bytes with
  | case1 mem end_ hlt padded =>
    rename_i ih
    -- one round: the last byte gets its continuation bit and a zero byte follows it
    obtain ⟨init, last, rfl, hinit, hlast⟩ := ht
    have hlen : (init ++ [last]).length = init.length + 1 := by simp
    have hprev : dest + init.length = end_ - 1 := by omega
    have hround := holds_padRound h
    rw [hprev, show end_ - 1 + 1 = end_ by omega] at hround
    have ht' : Terminated (init ++ [last ||| 0x80, 0]) := by
      rw [← lengthen_succ ⟨init, last, rfl, hinit, hlast⟩]
      exact terminated_lengthen ⟨init, last, rfl, hinit, hlast⟩ _
    obtain ⟨ih₁, ih₂⟩ := ih hround ht' (by simp; omega) (by omega)
    refine ⟨?_, fun a ha => ?_⟩
    · rw [← lengthen_succ ⟨init, last, rfl, hinit, hlast⟩,
        lengthen_lengthen (by simp) (by omega)] at ih₁
      exact ih₁
    · have h₁ : a ≠ end_ := by omega
      have h₂ : a ≠ end_ - 1 := by omega
      rw [ih₂ a ha, Function.update_of_ne h₁]
      exact Function.update_of_ne h₂ _ _
  | case2 mem end_ hge =>
    have hnot : ¬bytes.length < oldEnd - dest := by omega
    rw [lengthen, if_neg hnot]
    exact ⟨h, fun _ _ => rfl⟩

/-- `UpdateUnsignedLeb128` over a run of at most five bytes writes the new number stretched to
the run's length, and nothing outside the run. -/
theorem updateUnsignedLeb128_spec (mem : ByteMemory) (dest : Nat) (value : BitVec 32)
    {old : List (BitVec 8)} (hold : mem.Holds dest old) (ht : Terminated old)
    (hlen : old.length ≤ 5) (hfit : (encode value.toNat).length ≤ old.length) :
    (updateUnsignedLeb128 mem dest value).Holds dest (lengthen (encode value.toNat) old.length) ∧
      ∀ a, a < dest ∨ dest + old.length ≤ a → updateUnsignedLeb128 mem dest value a = mem a := by
  rw [updateUnsignedLeb128, decodeUnsignedLeb128_of_holds hold ht hlen, encodeUnsignedLeb128_eq]
  dsimp only
  obtain ⟨hholds, hframe⟩ := updateUnsignedLeb128Loop_spec _ _ (dest + old.length)
    (holds_write mem dest (encode value.toNat)) (terminated_encode _) rfl (by omega)
  rw [Nat.add_sub_cancel_left] at hholds
  refine ⟨hholds, fun a ha => ?_⟩
  rw [hframe a ha]
  exact write_of_notMem mem dest _ (by omega)

end Update

/-! ### Round trips -/

section RoundTrip

/-- What an encoder and its two decoders guarantee for a value `v` written at `dest`: the
encoder ends `size` bytes on and writes nothing outside them, the decoder reads `v` back over
exactly those bytes, and the checked decoder does the same when they end by `end_` and fails,
leaving the cursor where it was, otherwise. -/
structure RoundTrip (mem : ByteMemory) (dest : Nat) (v : BitVec 32) (size : Nat)
    (encoded : ByteMemory × Nat) (decode : ByteMemory → Nat → BitVec 32 × Nat)
    (decodeChecked : ByteMemory → Nat → Nat → Option (BitVec 32 × Nat)) : Prop where
  end_eq : encoded.2 = dest + size
  frame : ∀ a, a < dest ∨ dest + size ≤ a → encoded.1 a = mem a
  decode_eq : decode encoded.1 dest = (v, dest + size)
  decodeChecked_eq : ∀ end_, decodeChecked encoded.1 dest end_ =
    if dest + size ≤ end_ then some (v, dest + size) else none

/-- Writing a run that the decoder reads back as `v` is a round trip, when the checked decoder is
the decoder guarded by `end_`. -/
theorem roundTrip_of_write {mem : ByteMemory} {dest : Nat} {v : BitVec 32}
    {bytes : List (BitVec 8)} {decode : ByteMemory → Nat → BitVec 32 × Nat}
    {decodeChecked : ByteMemory → Nat → Nat → Option (BitVec 32 × Nat)}
    (hdecode : decode (mem.write dest bytes) dest = (v, dest + bytes.length))
    (hchecked : ∀ m end_, decodeChecked m dest end_ =
      if (decode m dest).2 ≤ end_ then some (decode m dest) else none) :
    RoundTrip mem dest v bytes.length (mem.write dest bytes, dest + bytes.length) decode
      decodeChecked where
  end_eq := rfl
  frame _ ha := write_of_notMem mem dest bytes ha
  decode_eq := hdecode
  decodeChecked_eq end_ := by rw [hchecked, hdecode]

theorem decodeUnsignedLeb128_write_encode (mem : ByteMemory) (dest : Nat) (v : BitVec 32) :
    decodeUnsignedLeb128 (mem.write dest (encode v.toNat)) dest =
      (v, dest + (encode v.toNat).length) := by
  rw [decodeUnsignedLeb128_of_holds (holds_write mem dest _) (terminated_encode _)
    (length_encode_le_five v), value_encode, BitVec.ofNat_toNat, BitVec.setWidth_eq]

theorem decodeSignedLeb128_write_encodeSigned (mem : ByteMemory) (dest : Nat) (v : BitVec 32) :
    decodeSignedLeb128 (mem.write dest (encodeSigned v.toInt)) dest =
      (v, dest + (encodeSigned v.toInt).length) := by
  rw [decodeSignedLeb128_of_holds (holds_write mem dest _) (terminated_encodeSigned _)
    (length_encodeSigned_le_five v), signedValue_encodeSigned, BitVec.ofInt_toInt]

/-- Every `uint32_t` round trips through the unsigned functions and every `int32_t` through the
signed ones, over exactly `UnsignedLeb128Size` and `SignedLeb128Size` bytes. -/
theorem leb128_round_trip (mem : ByteMemory) (dest : Nat) (v : BitVec 32) :
    RoundTrip mem dest v (unsignedLeb128Size v) (encodeUnsignedLeb128 mem dest v)
        decodeUnsignedLeb128 decodeUnsignedLeb128Checked ∧
      RoundTrip mem dest v (signedLeb128Size v) (encodeSignedLeb128 mem dest v)
        decodeSignedLeb128 decodeSignedLeb128Checked := by
  constructor
  · rw [unsignedLeb128Size_eq, encodeUnsignedLeb128_eq]
    exact roundTrip_of_write (decodeUnsignedLeb128_write_encode mem dest v)
      (fun m end_ => decodeUnsignedLeb128Checked_eq m dest end_)
  · rw [signedLeb128Size_eq, encodeSignedLeb128_eq]
    exact roundTrip_of_write (decodeSignedLeb128_write_encodeSigned mem dest v)
      (fun m end_ => decodeSignedLeb128Checked_eq m dest end_)

/-- Encoding `old` and updating it in place to a `new` whose run is no longer leaves `new` to be
read back over the old run, and nothing written outside it. -/
theorem update_unsigned_leb128_round_trip (mem : ByteMemory) (dest : Nat) (old new : BitVec 32)
    (hsize : unsignedLeb128Size new ≤ unsignedLeb128Size old) :
    decodeUnsignedLeb128 (updateUnsignedLeb128 (encodeUnsignedLeb128 mem dest old).1 dest new)
        dest = (new, dest + unsignedLeb128Size old) ∧
      ∀ a, a < dest ∨ dest + unsignedLeb128Size old ≤ a →
        updateUnsignedLeb128 (encodeUnsignedLeb128 mem dest old).1 dest new a = mem a := by
  rw [unsignedLeb128Size_eq, unsignedLeb128Size_eq] at hsize
  rw [unsignedLeb128Size_eq, encodeUnsignedLeb128_eq]
  obtain ⟨hholds, hframe⟩ := updateUnsignedLeb128_spec (mem.write dest (encode old.toNat)) dest
    new (holds_write mem dest _) (terminated_encode _) (length_encode_le_five old) hsize
  refine ⟨?_, fun a ha => ?_⟩
  · have hlen := length_lengthen _ hsize
    rw [decodeUnsignedLeb128_of_holds hholds (terminated_lengthen (terminated_encode _) _)
      (hlen.symm ▸ length_encode_le_five old), hlen, value_lengthen, value_encode, BitVec.ofNat_toNat,
      BitVec.setWidth_eq]
  · rw [hframe a ha]
    exact write_of_notMem mem dest _ ha

theorem update_unsigned_leb128_round_trip_300 :
    unsignedLeb128Size 5#32 ≤ unsignedLeb128Size 300#32 ∧
      decodeUnsignedLeb128
          (updateUnsignedLeb128 (encodeUnsignedLeb128 (fun _ => 0) 0 300#32).1 0 5#32) 0 =
        (5#32, 0 + unsignedLeb128Size 300#32) :=
  have hsize : unsignedLeb128Size 5#32 ≤ unsignedLeb128Size 300#32 := by decide
  ⟨hsize, (update_unsigned_leb128_round_trip (fun _ => 0) 0 300#32 5#32 hsize).1⟩

end RoundTrip

end Art
