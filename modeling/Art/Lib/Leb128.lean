import Mathlib

/-!
# LEB128

An unsigned LEB128 number is a run of bytes holding seven bits each, the least significant group
first, with the top bit set on every byte but the last (`Terminated`).  `value` reads the groups of
any run and `encode` is the shortest run of a number (`value_encode`, `terminated_encode`); it has
at most `k` bytes exactly when the number is below `128 ^ k` (`length_encode_le_iff`).

A signed number is the same groups read as a two's complement number of `7 * length` bits
(`signedValue`), and `encodeSigned` is its shortest run, of at most `k` bytes exactly when the
number lies in `[-64 * 128 ^ (k - 1), 64 * 128 ^ (k - 1))`.

`lengthen` stretches a run to more bytes by continuation bytes of value zero; a stretched run is
still terminated and has the same value (`value_lengthen`, `terminated_lengthen`).
-/

namespace Leb128

/-- The number the seven-bit groups of `bytes` make, the first group the least significant. -/
def value : List (BitVec 8) → Nat
  | [] => 0
  | b :: bs => b.toNat % 128 + 128 * value bs

/-- The bytes of one number: the continuation bit on every byte but the last. -/
def Terminated (bytes : List (BitVec 8)) : Prop :=
  ∃ init last, bytes = init ++ [last] ∧ (∀ b ∈ init, 128 ≤ b.toNat) ∧ last.toNat < 128

/-- The shortest unsigned LEB128 run of `v`. -/
def encode (v : Nat) : List (BitVec 8) :=
  if v < 128 then [BitVec.ofNat 8 v] else BitVec.ofNat 8 (v % 128 + 128) :: encode (v / 128)
termination_by v
decreasing_by omega

/-- The groups of `bytes` read as a two's complement number of `7 * bytes.length` bits. -/
def signedValue (bytes : List (BitVec 8)) : Int :=
  if 2 * value bytes < 128 ^ bytes.length then value bytes
  else (value bytes : Int) - 128 ^ bytes.length

/-- The shortest signed LEB128 run of `v`: groups of `v`'s two's complement bits until the rest is
the sign of the last group's top bit. -/
def encodeSigned (v : Int) : List (BitVec 8) :=
  if -64 ≤ v ∧ v < 64 then [BitVec.ofInt 8 (v % 128)]
  else BitVec.ofInt 8 (v % 128 + 128) :: encodeSigned (v / 128)
termination_by v.natAbs
decreasing_by omega

/-- `bytes` stretched to `n` bytes: every byte gets the continuation bit and zero groups follow,
the last without it. -/
def lengthen (bytes : List (BitVec 8)) (n : Nat) : List (BitVec 8) :=
  if bytes.length < n then
    bytes.map (· ||| 0x80) ++ List.replicate (n - bytes.length - 1) 0x80 ++ [0]
  else bytes

/-! ### Bytes -/

theorem toNat_ofNat_of_lt {n : Nat} (h : n < 256) : (BitVec.ofNat 8 n).toNat = n :=
  Nat.mod_eq_of_lt h

theorem toNat_ofInt_of_lt {n : Int} (h0 : 0 ≤ n) (h : n < 256) :
    ((BitVec.ofInt 8 n).toNat : Int) = n := by
  rw [BitVec.toNat_ofInt, Int.toNat_of_nonneg (Int.emod_nonneg _ (by decide))]
  exact Int.emod_eq_of_lt h0 h

theorem toNat_or_0x80 (b : BitVec 8) : (b ||| 0x80).toNat = b.toNat % 128 + 128 := by
  have hbyte : ∀ n : Fin 256, n.val ||| 128 = n.val % 128 + 128 := by decide +kernel
  rw [BitVec.toNat_or]
  exact hbyte ⟨b.toNat, b.isLt⟩

theorem or_0x80_of_le {b : BitVec 8} (h : 128 ≤ b.toNat) : b ||| 0x80 = b := by
  apply BitVec.eq_of_toNat_eq
  rw [toNat_or_0x80]
  have := b.isLt
  omega

/-! ### Values -/

@[simp]
theorem value_nil : value [] = 0 := rfl

@[simp]
theorem value_cons (b : BitVec 8) (bs : List (BitVec 8)) :
    value (b :: bs) = b.toNat % 128 + 128 * value bs := rfl

theorem value_lt (bytes : List (BitVec 8)) : value bytes < 128 ^ bytes.length := by
  induction bytes with
  | nil => simp
  | cons b bs ih =>
    rw [value_cons, List.length_cons, Nat.pow_succ]
    have := Nat.mod_lt b.toNat (show 0 < 128 by decide)
    omega

theorem value_append (a b : List (BitVec 8)) :
    value (a ++ b) = value a + 128 ^ a.length * value b := by
  induction a with
  | nil => simp
  | cons x xs ih =>
    rw [List.cons_append, value_cons, value_cons, ih, List.length_cons, Nat.pow_succ]
    rw [Nat.mul_add, ← Nat.mul_assoc, Nat.mul_comm 128 (128 ^ xs.length)]
    omega

theorem value_replicate_0x80 (n : Nat) : value (List.replicate n 0x80) = 0 := by
  induction n with
  | zero => rfl
  | succ n ih =>
    rw [List.replicate_succ, value_cons, ih]
    rfl

/-! ### Terminated runs -/

theorem Terminated.ne_nil {bytes : List (BitVec 8)} (h : Terminated bytes) : bytes ≠ [] := by
  obtain ⟨init, last, rfl, -, -⟩ := h
  simp

theorem terminated_singleton {b : BitVec 8} (h : b.toNat < 128) : Terminated [b] :=
  ⟨[], b, rfl, by simp, h⟩

theorem Terminated.cons {b : BitVec 8} {bs : List (BitVec 8)} (hb : 128 ≤ b.toNat)
    (h : Terminated bs) : Terminated (b :: bs) := by
  obtain ⟨init, last, rfl, hinit, hlast⟩ := h
  refine ⟨b :: init, last, rfl, fun x hx => ?_, hlast⟩
  rcases List.mem_cons.1 hx with rfl | hx
  · exact hb
  · exact hinit x hx

/-! ### The shortest unsigned run -/

theorem encode_of_lt {v : Nat} (h : v < 128) : encode v = [BitVec.ofNat 8 v] := by
  rw [encode, if_pos h]

theorem encode_of_le {v : Nat} (h : 128 ≤ v) :
    encode v = BitVec.ofNat 8 (v % 128 + 128) :: encode (v / 128) := by
  rw [encode, if_neg (by omega)]

theorem value_encode (v : Nat) : value (encode v) = v := by
  induction v using Nat.strong_induction_on with
  | _ v ih =>
    rcases Nat.lt_or_ge v 128 with h | h
    · rw [encode_of_lt h, value_cons, value_nil, toNat_ofNat_of_lt (by omega)]
      omega
    · rw [encode_of_le h, value_cons, ih (v / 128) (by omega), toNat_ofNat_of_lt (by omega)]
      omega

theorem terminated_encode (v : Nat) : Terminated (encode v) := by
  induction v using Nat.strong_induction_on with
  | _ v ih =>
    rcases Nat.lt_or_ge v 128 with h | h
    · rw [encode_of_lt h]
      exact terminated_singleton (by rw [toNat_ofNat_of_lt (by omega)]; exact h)
    · rw [encode_of_le h]
      exact (ih (v / 128) (by omega)).cons (by rw [toNat_ofNat_of_lt (by omega)]; omega)

/-- The shortest run of `v` has at most `k` bytes exactly when `v` has at most `k` groups. -/
theorem length_encode_le_iff {k : Nat} (hk : 0 < k) (v : Nat) :
    (encode v).length ≤ k ↔ v < 128 ^ k := by
  induction k generalizing v with
  | zero => omega
  | succ k ih =>
    rcases Nat.lt_or_ge v 128 with h | h
    · rw [encode_of_lt h, List.length_singleton]
      have : 128 ≤ 128 ^ (k + 1) := Nat.le_self_pow (by omega) 128
      omega
    · rw [encode_of_le h, List.length_cons, Nat.pow_succ]
      rcases Nat.eq_zero_or_pos k with rfl | hk'
      · -- one byte is too few for a number of two groups
        have : (encode (v / 128)).length ≠ 0 := by
          rw [Ne, List.length_eq_zero_iff]
          exact (terminated_encode _).ne_nil
        simp only [Nat.pow_zero, Nat.one_mul]
        omega
      · rw [Nat.add_le_add_iff_right, ih hk' (v / 128)]
        constructor
        · intro h'
          omega
        · intro h'
          exact (Nat.div_lt_iff_lt_mul (by decide)).2 h'

/-! ### Signed runs -/

/-- A run of more than one byte is read signed as its first group plus 128 times the rest. -/
theorem signedValue_cons {b : BitVec 8} {bs : List (BitVec 8)} (hbs : bs ≠ []) :
    signedValue (b :: bs) = (b.toNat % 128 : Nat) + 128 * signedValue bs := by
  have hlen : 0 < bs.length := List.length_pos_iff.2 hbs
  have hpow : 128 ^ (bs.length + 1) = 128 * 128 ^ bs.length := by rw [Nat.pow_succ, Nat.mul_comm]
  have heven : 2 ∣ 128 ^ bs.length :=
    Dvd.dvd.pow (show 2 ∣ 128 by decide) (Nat.pos_iff_ne_zero.1 hlen)
  have hg := Nat.mod_lt b.toNat (show 0 < 128 by decide)
  unfold signedValue
  rw [value_cons, List.length_cons, hpow]
  obtain ⟨m, hm⟩ := heven
  rw [hm]
  push_cast
  split_ifs <;> omega

theorem encodeSigned_of_small {v : Int} (h : -64 ≤ v ∧ v < 64) :
    encodeSigned v = [BitVec.ofInt 8 (v % 128)] := by
  rw [encodeSigned, if_pos h]

theorem encodeSigned_of_large {v : Int} (h : ¬(-64 ≤ v ∧ v < 64)) :
    encodeSigned v = BitVec.ofInt 8 (v % 128 + 128) :: encodeSigned (v / 128) := by
  rw [encodeSigned, if_neg h]

theorem encodeSigned_ne_nil (v : Int) : encodeSigned v ≠ [] := by
  rw [encodeSigned]
  split_ifs <;> simp

theorem toNat_group (v : Int) : ((BitVec.ofInt 8 (v % 128)).toNat : Int) = v % 128 :=
  toNat_ofInt_of_lt (Int.emod_nonneg _ (by decide)) (by omega)

theorem toNat_group_add (v : Int) :
    ((BitVec.ofInt 8 (v % 128 + 128)).toNat : Int) = v % 128 + 128 :=
  toNat_ofInt_of_lt (by omega) (by omega)

theorem signedValue_encodeSigned (v : Int) : signedValue (encodeSigned v) = v := by
  induction h : v.natAbs using Nat.strong_induction_on generalizing v with
  | _ n ih =>
    by_cases hs : -64 ≤ v ∧ v < 64
    · rw [encodeSigned_of_small hs]
      have hg := toNat_group v
      unfold signedValue
      rw [value_cons, value_nil, List.length_singleton]
      split_ifs <;> omega
    · rw [encodeSigned_of_large hs, signedValue_cons (encodeSigned_ne_nil _),
        ih (v / 128).natAbs (by omega) (v / 128) rfl]
      have hg := toNat_group_add v
      omega

theorem terminated_encodeSigned (v : Int) : Terminated (encodeSigned v) := by
  induction h : v.natAbs using Nat.strong_induction_on generalizing v with
  | _ n ih =>
    by_cases hs : -64 ≤ v ∧ v < 64
    · rw [encodeSigned_of_small hs]
      have hg := toNat_group v
      exact terminated_singleton (by omega)
    · rw [encodeSigned_of_large hs]
      have hg := toNat_group_add v
      exact (ih (v / 128).natAbs (by omega) (v / 128) rfl).cons (by omega)

/-- The shortest signed run of `v` has at most `k` bytes exactly when `v` fits in `7 * k` bits. -/
theorem length_encodeSigned_le_iff {k : Nat} (hk : 0 < k) (v : Int) :
    (encodeSigned v).length ≤ k ↔ -(64 * 128 ^ (k - 1) : Int) ≤ v ∧ v < 64 * 128 ^ (k - 1) := by
  induction k generalizing v with
  | zero => omega
  | succ k ih =>
    by_cases hs : -64 ≤ v ∧ v < 64
    · rw [encodeSigned_of_small hs, List.length_singleton]
      have : (1 : Int) ≤ 128 ^ k := by exact_mod_cast Nat.one_le_pow _ _ (by decide)
      simp only [Nat.add_sub_cancel, Nat.le_add_left, true_iff]
      constructor <;> omega
    · rw [encodeSigned_of_large hs, List.length_cons, Nat.add_sub_cancel]
      rcases Nat.eq_zero_or_pos k with rfl | hk'
      · have : (encodeSigned (v / 128)).length ≠ 0 := by
          rw [Ne, List.length_eq_zero_iff]
          exact encodeSigned_ne_nil _
        simp only [pow_zero, mul_one]
        omega
      · rw [Nat.add_le_add_iff_right, ih hk' (v / 128)]
        obtain ⟨j, rfl⟩ := Nat.exists_eq_add_of_lt hk'
        simp only [Nat.zero_add, Nat.add_sub_cancel, pow_succ]
        constructor <;> rintro ⟨h1, h2⟩ <;> constructor <;> omega

/-! ### Stretched runs -/

theorem length_lengthen (bytes : List (BitVec 8)) {n : Nat} (h : bytes.length ≤ n) :
    (lengthen bytes n).length = n := by
  unfold lengthen
  split_ifs with hlt
  · simp only [List.length_append, List.length_map, List.length_replicate, List.length_singleton]
    omega
  · omega

/-- Stretching a run one byte sets the continuation bit of its last byte and appends a zero. -/
theorem lengthen_succ {init : List (BitVec 8)} {last : BitVec 8}
    (h : Terminated (init ++ [last])) :
    lengthen (init ++ [last]) (init.length + 2) = init ++ [last ||| 0x80, 0] := by
  obtain ⟨init', last', heq, hinit, -⟩ := h
  obtain ⟨rfl, hl⟩ := List.append_inj' heq rfl
  cases hl
  have hmap : init.map (· ||| 0x80) = init := by
    conv => rhs; rw [← List.map_id init]
    exact List.map_congr_left fun b hb => or_0x80_of_le (hinit b hb)
  unfold lengthen
  rw [if_pos (by simp), List.map_append, hmap]
  simp

/-- Stretching in two steps is stretching at once. -/
theorem lengthen_lengthen {bytes : List (BitVec 8)} {m n : Nat} (hm : bytes.length < m)
    (hmn : m ≤ n) : lengthen (lengthen bytes m) n = lengthen bytes n := by
  have hlen := length_lengthen bytes (Nat.le_of_lt hm)
  rcases Nat.eq_or_lt_of_le hmn with rfl | hlt
  · unfold lengthen at hlen ⊢
    rw [if_neg (by omega)]
  · have hor : ∀ b : BitVec 8, (b ||| 0x80) ||| 0x80 = b ||| 0x80 := fun b => by
      rw [BitVec.or_assoc, BitVec.or_self]
    unfold lengthen at hlen ⊢
    rw [if_pos hm] at hlen ⊢
    rw [if_pos (by omega), if_pos (by omega)]
    simp only [List.map_append, List.map_map, List.map_replicate, List.map_cons, List.map_nil]
    have hcomp : ((· ||| 0x80) ∘ (· ||| 0x80) : BitVec 8 → BitVec 8) = (· ||| 0x80) :=
      funext hor
    rw [hcomp, show ((0x80 : BitVec 8) ||| 0x80) = 0x80 from rfl,
      show ((0 : BitVec 8) ||| 0x80) = 0x80 from rfl]
    simp only [List.append_assoc, List.cons_append, List.nil_append, List.length_append,
      List.length_map, List.length_replicate, List.length_singleton] at hlen ⊢
    have hsplit : n - bytes.length - 1 = (m - bytes.length - 1) + ((n - m - 1) + 1) := by omega
    rw [hlen, hsplit, List.replicate_add, List.replicate_succ]
    simp

theorem value_lengthen (bytes : List (BitVec 8)) (n : Nat) :
    value (lengthen bytes n) = value bytes := by
  have hmap : ∀ bs : List (BitVec 8), value (bs.map (· ||| 0x80)) = value bs := by
    intro bs
    induction bs with
    | nil => rfl
    | cons b bs ih =>
      rw [List.map_cons, value_cons, value_cons, ih, toNat_or_0x80]
      omega
  unfold lengthen
  split_ifs
  · rw [value_append, value_append, value_replicate_0x80, hmap]
    simp
  · rfl

theorem terminated_lengthen {bytes : List (BitVec 8)} (h : Terminated bytes) (n : Nat) :
    Terminated (lengthen bytes n) := by
  unfold lengthen
  split_ifs
  · refine ⟨bytes.map (· ||| 0x80) ++ List.replicate (n - bytes.length - 1) 0x80, 0, rfl,
      fun b hb => ?_, by decide⟩
    rcases List.mem_append.1 hb with hb | hb
    · obtain ⟨a, -, rfl⟩ := List.mem_map.1 hb
      rw [toNat_or_0x80]
      omega
    · rw [List.eq_of_mem_replicate hb]
      decide
  · exact h

end Leb128
