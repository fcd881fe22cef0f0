import Mathlib

/-!
# Bit lists

Bits least significant first, the order in which a bit stream stores a number.  `ofNat` writes the
low bits of a number, `toNat` reads a number back, and `slice` reads a window of a bit stream that
reads `false` past its end.

The lemmas say how these compose: `toNat_ofNat` (a number read back is the number modulo the
width), `toNat_append` and `ofNat_add` (splitting a number at a bit position), and the `slice`
lemmas that let a reader find what a writer appended: `slice_append_right`, `slice_append_left`,
`slice_slice` (reading a window of a window) and `slice_add` (two windows side by side).
-/

namespace BitList

/-- The `width` low bits of `value`, least significant first. -/
def ofNat : Nat → Nat → List Bool
  | _, 0 => []
  | value, width + 1 => (value % 2 = 1) :: ofNat (value / 2) width

/-- The number whose bits, least significant first, are `bits`. -/
def toNat : List Bool → Nat
  | [] => 0
  | b :: bs => b.toNat + 2 * toNat bs

/-- The `len` bits of `mem` from `pos`; bits past its end read as `false`. -/
def slice (mem : List Bool) (pos len : Nat) : List Bool :=
  (List.range len).map fun i => mem.getD (pos + i) false

@[simp] theorem length_ofNat (value width : Nat) : (ofNat value width).length = width := by
  induction width generalizing value with
  | zero => rfl
  | succ width ih => simp [ofNat, ih]

@[simp] theorem toNat_nil : toNat [] = 0 := rfl

theorem toNat_cons (b : Bool) (bs : List Bool) : toNat (b :: bs) = b.toNat + 2 * toNat bs := rfl

theorem toNat_ofNat (value width : Nat) : toNat (ofNat value width) = value % 2 ^ width := by
  induction width generalizing value with
  | zero => simp [ofNat, Nat.mod_one]
  | succ width ih =>
    rw [ofNat, toNat_cons, ih, Nat.pow_succ, Nat.mul_comm (2 ^ width) 2, Nat.mod_mul]
    rcases Nat.mod_two_eq_zero_or_one value with h | h <;> simp [h]

theorem testBit_toNat (bits : List Bool) (i : Nat) : (toNat bits).testBit i = bits.getD i false := by
  induction bits generalizing i with
  | nil => simp
  | cons b bs ih =>
    rw [toNat_cons, Nat.add_comm]
    cases i with
    | zero => cases b <;> simp
    | succ i =>
      rw [Nat.testBit_succ, Nat.mul_add_div (by decide : 0 < 2),
        Nat.div_eq_of_lt (by cases b <;> simp : b.toNat < 2), Nat.add_zero, ih]
      rfl

theorem toNat_lt (bits : List Bool) : toNat bits < 2 ^ bits.length := by
  induction bits with
  | nil => simp
  | cons b bs ih =>
    rw [toNat_cons, List.length_cons, Nat.pow_succ]
    cases b <;> simp only [Bool.toNat_false, Bool.toNat_true] <;> omega

theorem toNat_append (a b : List Bool) : toNat (a ++ b) = toNat a + 2 ^ a.length * toNat b := by
  induction a with
  | nil => simp
  | cons x xs ih =>
    rw [List.cons_append, toNat_cons, toNat_cons, ih, List.length_cons, Nat.pow_succ]
    rw [Nat.mul_add, ← Nat.mul_assoc, Nat.mul_comm 2 (2 ^ xs.length)]
    omega

/-- The low `a + b` bits are the low `a` bits, then `b` bits of what is above them. -/
theorem ofNat_add (value a b : Nat) : ofNat value (a + b) = ofNat value a ++ ofNat (value / 2 ^ a) b := by
  induction a generalizing value with
  | zero => simp [ofNat]
  | succ a ih =>
    rw [Nat.add_right_comm, ofNat, ofNat, ih, List.cons_append, Nat.div_div_eq_div_mul, Nat.pow_succ,
      Nat.mul_comm (2 ^ a) 2]

@[simp] theorem length_slice (mem : List Bool) (pos len : Nat) : (slice mem pos len).length = len := by
  simp [slice]

theorem getElem_slice {mem : List Bool} {pos len i : Nat} (h : i < (slice mem pos len).length) :
    (slice mem pos len)[i] = mem.getD (pos + i) false := by
  simp [slice]

theorem getD_slice (mem : List Bool) (pos len i : Nat) :
    (slice mem pos len).getD i false = (decide (i < len) && mem.getD (pos + i) false) := by
  unfold slice
  by_cases hi : i < len <;> simp [hi]

theorem slice_ext {mem mem' : List Bool} {pos pos' len : Nat}
    (h : ∀ i < len, mem.getD (pos + i) false = mem'.getD (pos' + i) false) :
    slice mem pos len = slice mem' pos' len := by
  apply List.ext_getElem (by simp)
  intro i h1 h2
  rw [getElem_slice, getElem_slice]
  exact h i (by simpa using h1)

/-- A window that ends by `2 ^ w` is found at its offset cut to `w` bits. -/
theorem slice_mod_two_pow (mem : List Bool) {pos len w : Nat} (h : pos + len ≤ 2 ^ w) :
    slice mem (pos % 2 ^ w) len = slice mem pos len := by
  rcases Nat.eq_zero_or_pos len with rfl | hlen
  · simp [slice]
  · rw [Nat.mod_eq_of_lt (by omega)]

/-- A window of a list that lies inside it reads the list's own bits. -/
theorem slice_self (bits : List Bool) : slice bits 0 bits.length = bits := by
  apply List.ext_getElem (by simp)
  intro i h1 h2
  rw [getElem_slice, Nat.zero_add, List.getD_eq_getElem?_getD, List.getElem?_eq_getElem h2,
    Option.getD_some]

theorem slice_append_right (pre mem : List Bool) (pos len : Nat) :
    slice (pre ++ mem) (pre.length + pos) len = slice mem pos len := by
  refine slice_ext fun i _ => ?_
  rw [Nat.add_assoc, List.getD_eq_getElem?_getD, List.getElem?_append_right (by omega),
    Nat.add_sub_cancel_left, ← List.getD_eq_getElem?_getD]

theorem slice_append_left {mem : List Bool} {pos len : Nat} (h : pos + len ≤ mem.length)
    (rest : List Bool) : slice (mem ++ rest) pos len = slice mem pos len := by
  refine slice_ext fun i hi => ?_
  rw [List.getD_eq_getElem?_getD, List.getElem?_append_left (by omega),
    ← List.getD_eq_getElem?_getD]

/-- Reading what was appended last. -/
theorem slice_append_self (pre bits rest : List Bool) :
    slice (pre ++ bits ++ rest) pre.length bits.length = bits := by
  rw [List.append_assoc, ← Nat.add_zero pre.length, slice_append_right,
    slice_append_left (by simp), slice_self]

/-- A window inside a prefix reads the same in the whole stream. -/
theorem slice_of_isPrefix {bits out : List Bool} (h : bits <+: out) {pos len : Nat}
    (hle : pos + len ≤ bits.length) : slice out pos len = slice bits pos len := by
  obtain ⟨rest, rfl⟩ := h
  exact slice_append_left hle rest

theorem slice_of_append_isPrefix {pre bits out : List Bool} (h : pre ++ bits <+: out) :
    slice out pre.length bits.length = bits := by
  obtain ⟨rest, rfl⟩ := h
  exact slice_append_self pre bits rest

theorem slice_add (mem : List Bool) (pos a b : Nat) :
    slice mem pos (a + b) = slice mem pos a ++ slice mem (pos + a) b := by
  apply List.ext_getElem (by simp)
  intro i h1 h2
  rw [getElem_slice]
  by_cases hi : i < a
  · rw [List.getElem_append_left (by simpa using hi), getElem_slice]
  · rw [List.getElem_append_right (by simpa using hi), getElem_slice]
    simp only [length_slice]
    congr 1
    omega

/-- Block `i` of a concatenation starts where the blocks before it end. -/
theorem slice_flatten_getElem {bs : List (List Bool)} {i : Nat} (hi : i < bs.length) :
    slice bs.flatten ((bs.take i).map List.length).sum bs[i].length = bs[i] := by
  have hsplit : bs.flatten = (bs.take i).flatten ++ bs[i] ++ (bs.drop (i + 1)).flatten := by
    conv_lhs => rw [← List.take_append_drop i bs, List.drop_eq_getElem_cons hi]
    rw [List.flatten_append, List.flatten_cons, List.append_assoc]
  rw [hsplit, ← List.length_flatten]
  exact slice_append_self _ _ _

theorem sum_map_length_of_forall {bs : List (List Bool)} {n : Nat}
    (hlen : ∀ b ∈ bs, b.length = n) : (bs.map List.length).sum = bs.length * n := by
  induction bs with
  | nil => simp
  | cons b bs ih =>
    rw [List.map_cons, List.sum_cons, hlen b List.mem_cons_self,
      ih fun b' hb' => hlen b' (List.mem_cons_of_mem _ hb'), List.length_cons, Nat.succ_mul,
      Nat.add_comm]

/-- Blocks of one length `n`: block `i` is the window of `n` bits at `i * n`. -/
theorem slice_flatten_of_length {bs : List (List Bool)} {n : Nat}
    (hlen : ∀ b ∈ bs, b.length = n) {i : Nat} (hi : i < bs.length) :
    slice bs.flatten (i * n) n = bs[i] := by
  have hoffset : ((bs.take i).map List.length).sum = i * n := by
    rw [sum_map_length_of_forall fun b hb => hlen b (List.mem_of_mem_take hb), List.length_take,
      Nat.min_eq_left (Nat.le_of_lt hi)]
  have hblock := slice_flatten_getElem hi
  rwa [hoffset, hlen _ (List.getElem_mem hi)] at hblock

/-- A window of a window is a window. -/
theorem slice_slice {mem : List Bool} {pos n a len : Nat} (h : a + len ≤ n) :
    slice (slice mem pos n) a len = slice mem (pos + a) len := by
  refine slice_ext fun i hi => ?_
  rw [List.getD_eq_getElem?_getD, List.getElem?_eq_getElem (by simp; omega), Option.getD_some,
    getElem_slice, Nat.add_assoc]

/-- Two streams that agree on a window agree on every window inside it. -/
theorem slice_eq_of_slice_eq {mem mem' : List Bool} {pos pos' n a len : Nat}
    (h : slice mem pos n = slice mem' pos' n) (ha : a + len ≤ n) :
    slice mem (pos + a) len = slice mem' (pos' + a) len := by
  rw [← slice_slice ha, h, slice_slice ha]

end BitList
