import Mathlib

/-!
# Byte-addressed memory, read bit by bit

A memory is a byte at every address.  Bit `p` of it is bit `p % 8` of byte `p / 8`, least
significant first, so the bits of a little-endian load of `n` bytes from `addr` are the `8 * n`
bits of memory from bit `8 * addr` (`testBit_loadLE`), and a naturally aligned word of `width`
bits at word index `index` holds the bits from `index * width` (`getLsbD_loadWord`).  A byte
update changes the eight bits of that byte and no other (`bit_update`).
-/

namespace Art

/-- A byte at every address. -/
abbrev ByteMemory := Nat → BitVec 8

namespace ByteMemory

/-- Bit `p` of the memory: bit `p % 8` of byte `p / 8`. -/
def bit (mem : ByteMemory) (p : Nat) : Bool := (mem (p / 8)).getLsbD (p % 8)

/-- The `n` bytes from `addr`, little endian. -/
def loadLE (mem : ByteMemory) (addr : Nat) : Nat → Nat
  | 0 => 0
  | n + 1 => (mem addr).toNat + 2 ^ 8 * mem.loadLE (addr + 1) n

/-- The naturally aligned word of `width` bits at word index `index`. -/
def loadWord (mem : ByteMemory) (width index : Nat) : BitVec width :=
  BitVec.ofNat width (mem.loadLE (index * (width / 8)) (width / 8))

variable (mem : ByteMemory)

theorem bit_byte (addr : Nat) {j : Nat} (hj : j < 8) :
    mem.bit (8 * addr + j) = (mem addr).getLsbD j := by
  unfold bit
  rw [Nat.mul_add_div (by decide), Nat.div_eq_of_lt hj, Nat.add_zero, Nat.mul_add_mod,
    Nat.mod_eq_of_lt hj]

theorem testBit_loadLE (addr n i : Nat) :
    (mem.loadLE addr n).testBit i = (decide (i < 8 * n) && mem.bit (8 * addr + i)) := by
  induction n generalizing addr i with
  | zero => simp [loadLE]
  | succ n ih =>
    rw [loadLE, Nat.add_comm, Nat.testBit_two_pow_mul_add _ (mem addr).isLt]
    split
    · rename_i hi
      rw [BitVec.testBit_toNat, bit_byte mem addr hi]
      simp only [show i < 8 * (n + 1) by omega, decide_true, Bool.true_and]
    · rename_i hi
      have hiff : i - 8 < 8 * n ↔ i < 8 * (n + 1) := by omega
      rw [ih, show 8 * (addr + 1) + (i - 8) = 8 * addr + i by omega, decide_eq_decide.mpr hiff]

theorem getLsbD_loadWord {width : Nat} (hw : 8 ∣ width) (index i : Nat) :
    (mem.loadWord width index).getLsbD i = (decide (i < width) && mem.bit (index * width + i)) := by
  obtain ⟨m, rfl⟩ := hw
  have hm : 8 * m / 8 = m := Nat.mul_div_cancel_left m (by decide)
  unfold loadWord
  rw [BitVec.getLsbD_ofNat, hm, testBit_loadLE]
  rw [show 8 * (index * m) + i = index * (8 * m) + i by rw [Nat.mul_left_comm]]
  cases decide (i < 8 * m) <;> rfl

/-- A byte update changes the bits of that byte only. -/
theorem bit_update (addr : Nat) (b : BitVec 8) (p : Nat) :
    bit (Function.update mem addr b) p = if p / 8 = addr then b.getLsbD (p % 8) else mem.bit p := by
  unfold bit
  rw [Function.update_apply]
  split <;> rfl

/-! ### Runs of bytes -/

/-- `bytes` stand in memory from `addr` on. -/
def Holds (mem : ByteMemory) (addr : Nat) (bytes : List (BitVec 8)) : Prop :=
  ∀ i (h : i < bytes.length), mem (addr + i) = bytes[i]

/-- The memory after writing `bytes` from `addr` on, one byte after the other. -/
def write (mem : ByteMemory) (addr : Nat) : List (BitVec 8) → ByteMemory
  | [] => mem
  | b :: bs => write (Function.update mem addr b) (addr + 1) bs

/-- A vector of bytes as memory, zero past its end. -/
def ofList (bytes : List (BitVec 8)) : ByteMemory := fun a => bytes.getD a 0

theorem holds_nil (addr : Nat) : mem.Holds addr [] := fun _ h => absurd h (Nat.not_lt_zero _)

theorem holds_cons_iff {addr : Nat} {b : BitVec 8} {bs : List (BitVec 8)} :
    mem.Holds addr (b :: bs) ↔ mem addr = b ∧ mem.Holds (addr + 1) bs := by
  constructor
  · intro h
    refine ⟨h 0 (Nat.succ_pos _), fun i hi => ?_⟩
    rw [Nat.add_assoc, Nat.add_comm 1 i]
    exact h (i + 1) (Nat.succ_lt_succ hi)
  · rintro ⟨h0, h⟩ i hi
    cases i with
    | zero => exact h0
    | succ i =>
      rw [← Nat.add_assoc, Nat.add_right_comm]
      exact h i (Nat.lt_of_succ_lt_succ hi)

theorem holds_append_iff {addr : Nat} {a b : List (BitVec 8)} :
    mem.Holds addr (a ++ b) ↔ mem.Holds addr a ∧ mem.Holds (addr + a.length) b := by
  induction a generalizing addr with
  | nil => simp [holds_nil]
  | cons x xs ih =>
    rw [List.cons_append, holds_cons_iff, holds_cons_iff, ih, List.length_cons,
      Nat.add_assoc, Nat.add_comm 1 xs.length, and_assoc]

/-- Memory that agrees on the bytes' addresses holds them too. -/
theorem Holds.congr {m m' : ByteMemory} {addr : Nat} {bytes : List (BitVec 8)}
    (h : m.Holds addr bytes) (hagree : ∀ i < bytes.length, m' (addr + i) = m (addr + i)) :
    m'.Holds addr bytes := fun i hi => (hagree i hi).trans (h i hi)

theorem write_of_notMem (addr : Nat) (bytes : List (BitVec 8)) {a : Nat}
    (ha : a < addr ∨ addr + bytes.length ≤ a) : mem.write addr bytes a = mem a := by
  induction bytes generalizing mem addr with
  | nil => rfl
  | cons b bs ih =>
    rw [write, ih _ _ (by rw [List.length_cons] at ha; omega),
      Function.update_of_ne (by rw [List.length_cons] at ha; omega)]

theorem holds_write (addr : Nat) (bytes : List (BitVec 8)) :
    (mem.write addr bytes).Holds addr bytes := by
  induction bytes generalizing mem addr with
  | nil => exact holds_nil _ addr
  | cons b bs ih =>
    rw [holds_cons_iff, write, write_of_notMem _ _ _ (Or.inl (Nat.lt_succ_self addr)),
      Function.update_self]
    exact ⟨rfl, ih _ _⟩

/-! ### Little-endian words -/

/-- The `n` bytes of `v`, least significant first, as a little-endian store writes them. -/
def leBytes (v : Nat) : Nat → List (BitVec 8)
  | 0 => []
  | n + 1 => BitVec.ofNat 8 v :: leBytes (v / 2 ^ 8) n

@[simp]
theorem length_leBytes (v n : Nat) : (leBytes v n).length = n := by
  induction n generalizing v with
  | zero => rfl
  | succ n ih => rw [leBytes, List.length_cons, ih]

/-- A little-endian load reads back what a little-endian store of as many bytes wrote. -/
theorem loadLE_of_holds_leBytes {addr v n : Nat} (h : mem.Holds addr (leBytes v n)) :
    mem.loadLE addr n = v % 2 ^ (8 * n) := by
  induction n generalizing addr v with
  | zero => simp [loadLE, Nat.mod_one]
  | succ n ih =>
    rw [leBytes, holds_cons_iff] at h
    rw [loadLE, h.1, ih h.2, BitVec.toNat_ofNat, show 8 * (n + 1) = 8 + 8 * n by omega, Nat.pow_add,
      Nat.mod_mul]

/-- Word `k` of a run of little-endian words of `n` bytes each. -/
theorem holds_flatten_leBytes {addr n : Nat} {ws : List Nat}
    (h : mem.Holds addr (ws.map (leBytes · n)).flatten) {k : Nat} (hk : k < ws.length) :
    mem.Holds (addr + n * k) (leBytes ws[k] n) := by
  induction ws generalizing addr k with
  | nil => exact absurd hk (Nat.not_lt_zero _)
  | cons w ws ih =>
    rw [List.map_cons, List.flatten_cons, holds_append_iff, length_leBytes] at h
    cases k with
    | zero => simpa using h.1
    | succ k =>
      rw [List.getElem_cons_succ, show addr + n * (k + 1) = addr + n + n * k by rw [Nat.mul_succ]; omega]
      exact ih h.2 (Nat.lt_of_succ_lt_succ hk)

end ByteMemory

/-- The population count of a word is the number of its set bits. -/
theorem BitVec.toNat_cpop_eq_countP {w : Nat} (x : BitVec w) :
    x.cpop.toNat = (List.range w).countP x.getLsbD := by
  rw [BitVec.toNat_cpop]
  suffices h : ∀ n, x.cpopNatRec n 0 = (List.range n).countP x.getLsbD from h w
  intro n
  induction n with
  | zero => rfl
  | succ n ih =>
    rw [BitVec.cpopNatRec_succ, BitVec.cpopNatRec_eq, ih, List.range_succ, List.countP_append]
    cases h : x.getLsbD n <;> simp [h]

/-- Counting the low `n` of `w` indices that pass a test. -/
theorem countP_range_and_lt {w n : Nat} (hn : n ≤ w) (f : Nat → Bool) :
    (List.range w).countP (fun j => decide (j < n) && f j) = (List.range n).countP f := by
  obtain ⟨m, rfl⟩ := Nat.exists_eq_add_of_le hn
  rw [List.range_add, List.countP_append, List.countP_map]
  have hlow : (List.range n).countP (fun j => decide (j < n) && f j) = (List.range n).countP f :=
    List.countP_congr fun j hj => by simp [List.mem_range.mp hj]
  have hhigh : (List.range m).countP ((fun j => decide (j < n) && f j) ∘ (n + ·)) = 0 :=
    List.countP_eq_zero.mpr fun j _ => by simp
  rw [hlow, hhigh, Nat.add_zero]

theorem BitVec.getLsbD_eq_false_of_toNat_lt {w n : Nat} {x : BitVec w} (hx : x.toNat < 2 ^ n)
    {j : Nat} (hj : n ≤ j) : x.getLsbD j = false := by
  rw [← BitVec.testBit_toNat]
  exact Nat.testBit_lt_two_pow (Nat.lt_of_lt_of_le hx (Nat.pow_le_pow_right (by decide) hj))

theorem BitVec.toNat_lt_of_getLsbD {w n : Nat} {x : BitVec w}
    (h : ∀ j, n ≤ j → x.getLsbD j = false) : x.toNat < 2 ^ n :=
  Nat.lt_pow_two_of_testBit _ fun j hj => by rw [BitVec.testBit_toNat]; exact h j hj

end Art
