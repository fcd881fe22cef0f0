import Mathlib
import Art.Base.BitVector

/-!
# The set algebra of bit vectors

`members v` is the set of indices `IsBitSet` answers `true` for.  While `storage_size_ *
kWordBits` does not wrap, below `2 ^ 27` words, every such answer is a bit of the words
(`isBitSet_eq_bit`), so what an operation does to the set is read off what it does to each word:
one lemma per operation gives every word of the result from the loop lemmas of `WordBits`, and
one more bounds the length of the result.  `getHighestBitSet_spec` says that `GetHighestBitSet`
is the largest member, or `-1`, for a vector of at most `2 ^ 26` words, whose bits have `int`
indices; `getHighestBitSet_wraps` is a vector one word longer whose highest bit comes back
negative.  The words past the highest bit are zero, which is why `Union` may stop at it, and why
`SameBitsSet` may leave out the word of the highest bit when that bit is the lowest of its word:
the word is then `1` in both vectors.

`bit_vector_set_algebra` collects the results for vectors of at most `2 ^ 26` words.  Each
operation computes the set operation its name says, the two comparisons decide equality and
inclusion, `Union` and `UnionIfNotIn` report exactly whether the set changed, `NumSetBits(end)`
counts the members below `end`, and `SetInitialBits(n)` leaves the members below `n`, for every
`n` whose `BitsToWords(n)` does not wrap.
-/

namespace Art

namespace BitVector

open WordBits Word32

variable (v : BitVector)

/-- The indices `IsBitSet` answers `true` for. -/
def members : Finset Nat :=
  (Finset.range (v.storage.length * kWordBits)).filter fun i => v.isBitSet i

/-- `h` is the highest set bit of the words, or `-1` and no bit is set. -/
def IsHighest (ws : List (BitVec 32)) (h : Int) : Prop :=
  (h = -1 ∧ ∀ i, bit ws i = false) ∨
    ∃ n : Nat, h = n ∧ bit ws n = true ∧ ∀ i, bit ws i = true → i ≤ n

section Bits

theorem wordIndex_eq (idx : Nat) : wordIndex idx = idx / 32 := Nat.shiftRight_eq_div_pow idx 5

theorem bitMask_eq (idx : Nat) : bitMask idx = BitVec.twoPow 32 (idx % 32) := by
  unfold bitMask
  rw [BitVec.twoPow_eq, show idx &&& 0x1f = idx % 32 from Nat.and_two_pow_sub_one_eq_mod idx 5]
  rfl

theorem getLsbD_bitMask (idx j : Nat) : (bitMask idx).getLsbD j = decide (idx % 32 = j) := by
  rw [bitMask_eq, BitVec.getLsbD_twoPow, decide_eq_true (Nat.mod_lt idx (by decide)), Bool.true_and]

/-- The mask picks bit `i % 32` of word `i / 32`. -/
theorem rawStorageWord_and_bitMask (i : Nat) :
    (v.getRawStorageWord (wordIndex i) &&& bitMask i != 0) = bit v.storage i := by
  unfold getRawStorageWord bit
  rw [wordIndex_eq, bitMask_eq, BitVec.and_twoPow]
  have hpow : BitVec.twoPow 32 (i % 32) ≠ 0#32 := by
    intro h0
    have := congrArg (fun x => x.getLsbD (i % 32)) h0
    simp [Nat.mod_lt i (by decide : 0 < 32)] at this
  cases (v.storage.getD (i / 32) 0).getLsbD (i % 32) <;> simp [hpow]

theorem isBitSet_eq (i : Nat) :
    v.isBitSet i = (decide (i < v.getBitSizeOf) && bit v.storage i) := by
  unfold isBitSet
  rw [rawStorageWord_and_bitMask]

theorem getBitSizeOf_le : v.getBitSizeOf ≤ v.storage.length * kWordBits := Nat.mod_le _ _

/-- Below `2 ^ 27` words `storage_size_ * kWordBits` does not wrap. -/
theorem getBitSizeOf_eq (hv : v.storage.length < 2 ^ 27) :
    v.getBitSizeOf = v.storage.length * kWordBits :=
  u32_of_lt (by unfold kWordBits; omega)

/-- `IsBitSet` reads the bit of the words. -/
theorem isBitSet_eq_bit (hv : v.storage.length < 2 ^ 27) (i : Nat) :
    v.isBitSet i = bit v.storage i := by
  rw [isBitSet_eq, v.getBitSizeOf_eq hv]
  by_cases hi : i < v.storage.length * kWordBits
  · rw [decide_eq_true hi, Bool.true_and]
  · rw [decide_eq_false hi, Bool.false_and, bit_eq_false_of_le (Nat.le_of_not_lt hi)]

theorem mem_members_iff {i : Nat} : i ∈ v.members ↔ v.isBitSet i = true := by
  unfold members
  rw [Finset.mem_filter, Finset.mem_range]
  refine ⟨And.right, fun h => ⟨?_, h⟩⟩
  rw [isBitSet_eq, Bool.and_eq_true, decide_eq_true_iff] at h
  exact Nat.lt_of_lt_of_le h.1 v.getBitSizeOf_le

theorem mem_members (hv : v.storage.length < 2 ^ 27) {i : Nat} :
    i ∈ v.members ↔ bit v.storage i = true := by
  rw [mem_members_iff, v.isBitSet_eq_bit hv]

/-- Words with no bit set have no member, whatever their number. -/
theorem members_eq_empty (h : ∀ i, bit v.storage i = false) : v.members = ∅ :=
  Finset.eq_empty_of_forall_notMem fun i hi => by
    rw [mem_members_iff, isBitSet_eq, h, Bool.and_false] at hi
    exact Bool.false_ne_true hi

/-- Two vectors have the same members when their words read the same. -/
theorem members_eq_iff {u v : BitVector} (hu : u.storage.length < 2 ^ 27)
    (hv : v.storage.length < 2 ^ 27) :
    u.members = v.members ↔ ∀ k, u.storage.getD k 0 = v.storage.getD k 0 := by
  rw [← bit_eq_iff, Finset.ext_iff]
  simp only [u.mem_members hu, v.mem_members hv, Bool.coe_iff_coe]

theorem members_subset_iff {u v : BitVector} (hu : u.storage.length < 2 ^ 27)
    (hv : v.storage.length < 2 ^ 27) :
    u.members ⊆ v.members ↔ ∀ k, u.storage.getD k 0 ||| v.storage.getD k 0 = v.storage.getD k 0 := by
  rw [← bit_subset_iff]
  simp only [Finset.subset_iff, u.mem_members hu, v.mem_members hv]

end Bits

section Highest

/-- The top bit of a nonzero word is bit `31 - CLZ`. -/
theorem clz_bounds {value : BitVec 32} (hv : value ≠ 0) :
    clz value ≤ 31 ∧ value.getLsbD (31 - clz value) = true ∧
      ∀ j, value.getLsbD j = true → j ≤ 31 - clz value := by
  have htop := BitVec.getLsbD_true_clz_of_ne_zero (by decide) hv
  have hlt := BitVec.toNat_lt_two_pow_sub_clz (x := value)
  have hpos : 0 < value.toNat := by
    rcases Nat.eq_zero_or_pos value.toNat with h | h
    · exact absurd (BitVec.eq_of_toNat_eq (h.trans rfl)) hv
    · exact h
  unfold clz
  refine ⟨?_, htop, fun j hj => ?_⟩
  · -- a word below `2 ^ 0` would be zero
    by_contra hc
    rw [show 32 - value.clz.toNat = 0 by omega, Nat.pow_zero] at hlt
    omega
  · by_contra hle
    rw [Art.BitVec.getLsbD_eq_false_of_toNat_lt hlt (by omega)] at hj
    exact Bool.false_ne_true hj

/-- Below word `2 ^ 26` the `uint32_t` sum `31 - CLZ(value) + idx * kWordBits` is an `int`. -/
theorem toInt32_highestBit (c : Nat) {idx : Nat} (hidx : idx < 2 ^ 26) :
    toInt32 (u32 (31 - c + idx * kWordBits)) = ((31 - c + idx * kWordBits : Nat) : Int) := by
  unfold kWordBits
  rw [u32_of_lt (by omega), toInt32_of_lt (by omega)]

/-- The loop finds the highest set bit of the words below `n`, all words from `n` on being zero. -/
theorem getHighestBitSetLoop_spec (n : Nat) (hn : n ≤ 2 ^ 26)
    (hup : ∀ k, n ≤ k → v.storage.getD k 0 = 0) :
    IsHighest v.storage (v.getHighestBitSetLoop n) := by
  induction n with
  | zero =>
    refine Or.inl ⟨rfl, fun i => ?_⟩
    unfold bit
    rw [hup _ (Nat.zero_le _), getLsbD_zero]
  | succ n ih =>
    rw [getHighestBitSetLoop]
    by_cases hv : v.getRawStorageWord n = 0
    · rw [if_neg (not_not.2 hv)]
      exact ih (by omega) fun k hk => (Nat.eq_or_lt_of_le hk).elim (fun h => h ▸ hv) (hup k)
    · rw [if_pos hv, toInt32_highestBit _ (by omega)]
      obtain ⟨hc, htop, hle⟩ := clz_bounds hv
      unfold getRawStorageWord at hc htop hle ⊢
      have hbit : ∀ j, j < 32 → bit v.storage (n * 32 + j) = (v.storage.getD n 0).getLsbD j :=
        fun j hj => bit_mul_add v.storage n hj
      refine Or.inr ⟨_, rfl, ?_, fun i hi => ?_⟩
      · rw [Nat.add_comm, kWordBits, hbit _ (by omega)]
        exact htop
      · -- a set bit is in a word below `n`, or in word `n` at most at its top bit
        have hlt := lt_of_bit hup hi
        rw [kWordBits]
        rcases Nat.lt_or_ge i (n * 32) with h | h
        · omega
        · have hj := hle (i - n * 32) (by rw [← hbit _ (by omega), Nat.add_sub_cancel' h]; exact hi)
          omega

/-- Up to `2 ^ 31` words the `int` loop counter starts at the top word. -/
theorem getHighestBitSet_eq_loop (hv : v.storage.length ≤ 2 ^ 31) :
    v.getHighestBitSet = v.getHighestBitSetLoop v.storage.length := by
  unfold getHighestBitSet
  split_ifs with hneg
  · -- only an empty storage starts below zero, and then the loop is empty too
    rcases Nat.eq_zero_or_pos v.storage.length with h0 | hpos
    · rw [h0]
      rfl
    · rw [u32, show v.storage.length + 2 ^ 32 - 1 = v.storage.length - 1 + 2 ^ 32 by omega,
        Nat.add_mod_right, Nat.mod_eq_of_lt (by omega), toInt32_of_lt (by omega)] at hneg
      omega
  · rfl

theorem getHighestBitSet_spec (hv : v.storage.length ≤ 2 ^ 26) :
    IsHighest v.storage v.getHighestBitSet := by
  rw [v.getHighestBitSet_eq_loop (by omega)]
  exact v.getHighestBitSetLoop_spec _ hv fun _ hk => getD_eq_zero_of_le hk

/-- Words with the same bits have the same highest bit. -/
theorem IsHighest.unique {ws ws' : List (BitVec 32)} {h h' : Int} (hb : ∀ i, bit ws i = bit ws' i)
    (hh : IsHighest ws h) (hh' : IsHighest ws' h') : h = h' := by
  rcases hh with ⟨rfl, hnone⟩ | ⟨n, rfl, hn, hle⟩ <;>
    rcases hh' with ⟨rfl, hnone'⟩ | ⟨n', rfl, hn', hle'⟩
  · rfl
  · rw [← hb, hnone] at hn'
    exact absurd hn' Bool.false_ne_true
  · rw [hb, hnone'] at hn
    exact absurd hn Bool.false_ne_true
  · have h1 := hle' n (by rw [← hb]; exact hn)
    have h2 := hle n' (by rw [hb]; exact hn')
    rw [Nat.le_antisymm h2 h1]

/-- `GetHighestBitSet` is the largest member, or `-1` when there is none. -/
theorem getHighestBitSet_members (hv : v.storage.length ≤ 2 ^ 26) :
    (v.getHighestBitSet = -1 ∧ v.members = ∅) ∨
      ∃ h ∈ v.members, v.getHighestBitSet = h ∧ ∀ i ∈ v.members, i ≤ h := by
  have hmem : ∀ i, i ∈ v.members ↔ bit v.storage i = true := fun _ => v.mem_members (by omega)
  rcases v.getHighestBitSet_spec hv with ⟨hh, hnone⟩ | ⟨h, hh, hbit, hle⟩
  · exact Or.inl ⟨hh, v.members_eq_empty hnone⟩
  · exact Or.inr ⟨h, (hmem h).2 hbit, hh, fun i hi => hle i ((hmem i).1 hi)⟩

end Highest

section Grow

/-- `BitsToWords(bits)` when the rounding does not wrap. -/
theorem bitsToWords_eq {bits : Nat} (h : bits < 2 ^ 32 - 31) : bitsToWords bits = (bits + 31) / 32 := by
  unfold bitsToWords kWordBits
  rw [u32_of_lt (by omega)]
  omega

/-- `BitsToWords(idx + 1)` for a bit below `2 ^ 32 - 32`: the word of `idx` and those below. -/
theorem bitsToWords_u32_succ {idx : Nat} (hidx : idx < 2 ^ 32 - 32) :
    bitsToWords (u32 (idx + 1)) = idx / 32 + 1 := by
  rw [u32_of_lt (by omega), bitsToWords_eq (by omega)]
  omega

theorem getD_clearAllBits (k : Nat) : v.clearAllBits.storage.getD k 0 = 0 :=
  getD_replicate_zero _ k

theorem getD_ensureSize (idx k : Nat) : (v.ensureSize idx).storage.getD k 0 = v.storage.getD k 0 := by
  unfold ensureSize
  split_ifs
  · exact getD_append_replicate _ _ _
  · rfl

/-- After `EnsureSize(idx)` the word of bit `idx` is in the storage, and no word past it was
added. -/
theorem length_ensureSize {idx : Nat} (hidx : idx < 2 ^ 32 - 32) :
    idx / 32 < (v.ensureSize idx).storage.length ∧
      (v.ensureSize idx).storage.length ≤ max v.storage.length (idx / 32 + 1) := by
  have hle := v.getBitSizeOf_le
  unfold kWordBits at hle
  unfold ensureSize
  split_ifs with h
  · rw [List.length_append, List.length_replicate, bitsToWords_u32_succ hidx]
    omega
  · omega

/-- What `SetBit` sees after its growth step: the same words, with the word of `idx` among them
and none past it added. -/
theorem setBit_grown {idx : Nat} (hidx : idx < 2 ^ 32 - 32) :
    idx / 32 < (if idx ≥ v.getBitSizeOf then v.ensureSize idx else v).storage.length ∧
      (if idx ≥ v.getBitSizeOf then v.ensureSize idx else v).storage.length ≤
        max v.storage.length (idx / 32 + 1) ∧
      ∀ k, (if idx ≥ v.getBitSizeOf then v.ensureSize idx else v).storage.getD k 0 =
        v.storage.getD k 0 := by
  split_ifs with h
  · exact ⟨(v.length_ensureSize hidx).1, (v.length_ensureSize hidx).2, v.getD_ensureSize idx⟩
  · have hle := v.getBitSizeOf_le
    unfold kWordBits at hle
    exact ⟨by omega, le_max_left _ _, fun _ => rfl⟩

theorem getD_setBit {idx : Nat} (hidx : idx < 2 ^ 32 - 32) (k : Nat) :
    (v.setBit idx).storage.getD k 0 =
      if k = idx / 32 then v.storage.getD k 0 ||| bitMask idx else v.storage.getD k 0 := by
  obtain ⟨hlt, -, hwords⟩ := v.setBit_grown hidx
  unfold setBit getRawStorageWord
  rw [wordIndex_eq, getD_set _ hlt, hwords, hwords]
  split_ifs with hk
  · rw [hk]
  · rfl

theorem length_setBit {idx : Nat} (hidx : idx < 2 ^ 32 - 32) :
    idx / 32 < (v.setBit idx).storage.length ∧
      (v.setBit idx).storage.length ≤ max v.storage.length (idx / 32 + 1) := by
  unfold setBit
  rw [List.length_set]
  exact ⟨(v.setBit_grown hidx).1, (v.setBit_grown hidx).2.1⟩

/-- Setting a bit inside `storage_size_ * kWordBits` does not grow the storage. -/
theorem length_setBit_of_lt {idx : Nat} (hidx : idx < v.getBitSizeOf) :
    (v.setBit idx).storage.length = v.storage.length := by
  unfold setBit
  rw [List.length_set, if_neg (Nat.not_le_of_lt hidx)]

theorem setBit_fits (hv : v.storage.length < 2 ^ 27) {idx : Nat} (hidx : idx < 2 ^ 32 - 32) :
    (v.setBit idx).storage.length < 2 ^ 27 := by
  have := (v.length_setBit hidx).2
  omega

theorem bit_setBit {idx : Nat} (hidx : idx < 2 ^ 32 - 32) (i : Nat) :
    bit (v.setBit idx).storage i = (bit v.storage i || decide (i = idx)) := by
  unfold bit
  rw [v.getD_setBit hidx]
  split_ifs with hk
  · rw [BitVec.getLsbD_or, getLsbD_bitMask]
    congr 1
    exact decide_eq_decide.2 ⟨fun h => by omega, fun h => by omega⟩
  · rw [decide_eq_false (fun h => hk (by rw [h])), Bool.or_false]

theorem length_clearBit (idx : Nat) : (v.clearBit idx).storage.length = v.storage.length := by
  unfold clearBit
  split_ifs
  · exact List.length_set
  · rfl

theorem getD_clearBit (hv : v.storage.length < 2 ^ 27) (idx k : Nat) :
    (v.clearBit idx).storage.getD k 0 =
      if k = idx / 32 then v.storage.getD k 0 &&& ~~~bitMask idx else v.storage.getD k 0 := by
  unfold clearBit getRawStorageWord
  rw [v.getBitSizeOf_eq hv]
  split_ifs with h hk hk
  · rw [wordIndex_eq, getD_set _ (by unfold kWordBits at h; omega), if_pos hk, hk]
  · rw [wordIndex_eq, getD_set _ (by unfold kWordBits at h; omega), if_neg hk]
  · -- past the storage the word reads as zero, with the bit cleared or not
    rw [hk, getD_eq_zero_of_le (by unfold kWordBits at h; omega)]
    exact BitVec.zero_and.symm
  · rfl

theorem members_setBit (hv : v.storage.length < 2 ^ 27) {idx : Nat} (hidx : idx < 2 ^ 32 - 32) :
    (v.setBit idx).members = insert idx v.members := by
  ext i
  rw [mem_members _ (v.setBit_fits hv hidx), v.bit_setBit hidx, Finset.mem_insert,
    v.mem_members hv, Bool.or_eq_true, decide_eq_true_iff, Or.comm]

theorem members_clearBit (hv : v.storage.length < 2 ^ 27) (idx : Nat) :
    (v.clearBit idx).members = v.members.erase idx := by
  ext i
  rw [mem_members _ (by rw [length_clearBit]; exact hv), Finset.mem_erase, v.mem_members hv]
  unfold bit
  rw [v.getD_clearBit hv]
  split_ifs with hk
  · rw [BitVec.getLsbD_and, BitVec.getLsbD_not, getLsbD_bitMask,
      decide_eq_true (Nat.mod_lt i (by decide : 0 < 32))]
    have hiff : idx % 32 = i % 32 ↔ i = idx := ⟨fun h => by omega, fun h => by rw [h]⟩
    cases (v.storage.getD (i / 32) 0).getLsbD (i % 32) <;> simp [hiff]
  · exact ⟨fun h => ⟨fun he => hk (by rw [he]), h⟩, And.right⟩

theorem members_clearAllBits : v.clearAllBits.members = ∅ :=
  members_eq_empty _ fun i => by rw [bit, getD_clearAllBits, getLsbD_zero]

end Grow

section Union

/-- The highest bit of a vector of at most `2 ^ 26` words is an `int` index. -/
theorem highest_lt {ws : List (BitVec 32)} {h : Nat} (hws : ws.length ≤ 2 ^ 26)
    (hbit : bit ws h = true) : h < 2 ^ 31 ∧ h / 32 < ws.length := by
  have := lt_of_bit_eq_true hbit
  omega

/-- `Union` and `UnionIfNotIn` go up to the word of the highest bit `h` of the other operand. -/
theorem bitsToWords_succ {h : Nat} (hh : h < 2 ^ 31) : bitsToWords (u32I ((h : Int) + 1)) = h / 32 + 1 := by
  rw [show (h : Int) + 1 = ((h + 1 : Nat) : Int) by omega, u32I_natCast (by omega),
    bitsToWords_eq (by omega)]
  omega

/-- Growing to the word of bit `h` when the storage is shorter keeps every word. -/
theorem grown_spec {h : Nat} (hh : h < 2 ^ 31) :
    h / 32 + 1 ≤ (if v.storage.length < h / 32 + 1 then v.ensureSize h else v).storage.length ∧
      (if v.storage.length < h / 32 + 1 then v.ensureSize h else v).storage.length ≤
        max v.storage.length (h / 32 + 1) ∧
      ∀ k, (if v.storage.length < h / 32 + 1 then v.ensureSize h else v).storage.getD k 0 =
        v.storage.getD k 0 := by
  split_ifs with hg
  · obtain ⟨hlt, hle⟩ := v.length_ensureSize (show h < 2 ^ 32 - 32 by omega)
    exact ⟨hlt, hle, v.getD_ensureSize h⟩
  · exact ⟨Nat.le_of_not_lt hg, le_max_left _ _, fun _ => rfl⟩

theorem word_ne_zero_of_bit {ws : List (BitVec 32)} {h : Nat} (hbit : bit ws h = true) :
    ws.getD (h / 32) 0 ≠ 0 := fun h0 => by
  unfold bit at hbit
  rw [h0, getLsbD_zero] at hbit
  exact Bool.false_ne_true hbit

/-- The loop of `Union` or-s in the words of `src`, which are zero past that of its highest bit. -/
theorem getD_unionLoop {u src : BitVector} {h : Nat} (hle : ∀ i, bit src.storage i = true → i ≤ h)
    (hlen : h / 32 + 1 ≤ u.storage.length) (changed : Bool) (k : Nat) :
    (updateLoop (fun idx existing => existing ||| src.getRawStorageWord idx) 0 (h / 32 + 1)
      (u.storage, changed)).1.getD k 0 = u.storage.getD k 0 ||| src.storage.getD k 0 := by
  rw [updateLoop_fst]
  dsimp only
  rw [getD_storeLoop _ (by omega)]
  split_ifs with hk
  · rfl
  · rw [getD_eq_zero_of_bit_le hle (by omega : h / 32 < k)]
    exact BitVec.or_zero.symm

/-- `Union` with no bit set in `src` changes nothing. -/
theorem union_of_none {src : BitVector} (hh : src.getHighestBitSet = -1) :
    v.union src = (v, false) := by
  simp only [union, hh, if_true]

/-- `Union` once the highest bit `h` of `src` is known: grow to the word of `h` if the storage is
shorter, then or in the words of `src` up to it. -/
theorem union_of_highest {src : BitVector} {h : Nat} (hh : src.getHighestBitSet = h)
    (hlt : h < 2 ^ 31) :
    v.union src =
      let grown := if v.storage.length < h / 32 + 1 then (v.ensureSize h, true) else (v, false)
      let result := updateLoop (fun idx existing => existing ||| src.getRawStorageWord idx) 0
        (h / 32 + 1) (grown.1.storage, grown.2)
      (⟨result.1⟩, result.2) := by
  have hne : (h : Int) ≠ -1 := by omega
  simp only [union, hh, hne, if_false, bitsToWords_succ hlt, u32I_natCast (by omega : h < 2 ^ 32)]

variable (src : BitVector) (hsrc : src.storage.length ≤ 2 ^ 26)
include hsrc

theorem getD_union (k : Nat) :
    (v.union src).1.storage.getD k 0 = v.storage.getD k 0 ||| src.storage.getD k 0 := by
  rcases src.getHighestBitSet_spec hsrc with ⟨hh, hnone⟩ | ⟨h, hh, hbit, hle⟩
  · rw [v.union_of_none hh, getD_eq_zero_of_bit_eq_false hnone]
    exact BitVec.or_zero.symm
  · obtain ⟨hlt, -⟩ := highest_lt hsrc hbit
    rw [v.union_of_highest hh hlt]
    by_cases hg : v.storage.length < h / 32 + 1
    · simp only [hg, if_true]
      rw [getD_unionLoop hle (v.length_ensureSize (by omega)).1, getD_ensureSize]
    · simp only [hg, if_false]
      rw [getD_unionLoop hle (Nat.le_of_not_lt hg)]

theorem length_union_le :
    (v.union src).1.storage.length ≤ max v.storage.length src.storage.length := by
  rcases src.getHighestBitSet_spec hsrc with ⟨hh, -⟩ | ⟨h, hh, hbit, -⟩
  · rw [v.union_of_none hh]
    exact le_max_left _ _
  · obtain ⟨hlt, hword⟩ := highest_lt hsrc hbit
    rw [v.union_of_highest hh hlt]
    by_cases hg : v.storage.length < h / 32 + 1
    · simp only [hg, if_true, updateLoop_fst, length_storeLoop]
      have := (v.length_ensureSize (show h < 2 ^ 32 - 32 by omega)).2
      omega
    · simp only [hg, if_false, updateLoop_fst, length_storeLoop]
      exact le_max_left _ _

/-- `Union` reports a change exactly when a word changes, growing the storage included. -/
theorem union_snd_iff :
    (v.union src).2 = true ↔ ∃ k, v.storage.getD k 0 ||| src.storage.getD k 0 ≠ v.storage.getD k 0 := by
  rcases src.getHighestBitSet_spec hsrc with ⟨hh, hnone⟩ | ⟨h, hh, hbit, hle⟩
  · simp only [v.union_of_none hh, getD_eq_zero_of_bit_eq_false hnone]
    simp
  · obtain ⟨hlt, -⟩ := highest_lt hsrc hbit
    rw [v.union_of_highest hh hlt]
    by_cases hg : v.storage.length < h / 32 + 1
    · -- the storage grows past the word of bit `h`, which then changes
      simp only [hg, if_true]
      have hgrow := (v.length_ensureSize (show h < 2 ^ 32 - 32 by omega)).1
      rw [updateLoop_snd_iff _ (by simp only; omega)]
      refine ⟨fun _ => ⟨h / 32, ?_⟩, fun _ => Or.inl rfl⟩
      rw [getD_eq_zero_of_le (by omega)]
      simpa using word_ne_zero_of_bit hbit
    · simp only [hg, if_false]
      rw [updateLoop_snd_iff _ (by simp only; omega)]
      constructor
      · rintro (hf | ⟨k, -, -, hk⟩)
        · exact absurd hf Bool.false_ne_true
        · exact ⟨k, hk⟩
      · rintro ⟨k, hk⟩
        refine Or.inr ⟨k, Nat.zero_le _, ?_, hk⟩
        -- past the word of bit `h` the words of `src` are zero and change nothing
        by_contra hge
        rw [getD_eq_zero_of_bit_le hle (by omega : h / 32 < k)] at hk
        simp at hk

variable (hv : v.storage.length ≤ 2 ^ 26)
include hv

theorem members_union : (v.union src).1.members = v.members ∪ src.members := by
  have hlen := v.length_union_le src hsrc
  ext i
  rw [mem_members _ (by omega), Finset.mem_union, v.mem_members (by omega),
    src.mem_members (by omega)]
  unfold bit
  rw [v.getD_union src hsrc, BitVec.getLsbD_or, Bool.or_eq_true]

theorem union_snd_iff_members :
    (v.union src).2 = true ↔ (v.union src).1.members ≠ v.members := by
  have hlen := v.length_union_le src hsrc
  rw [v.union_snd_iff src hsrc, Ne, members_eq_iff (by omega) (by omega), not_forall]
  simp only [v.getD_union src hsrc]

end Union

section UnionIfNotIn

variable (unionWith notIn : BitVector)

/-- Past `not_in`'s storage its words read as zero, and the mask `~not_in[idx]` keeps every bit. -/
theorem and_not_getD_of_le {k : Nat} (hk : notIn.storage.length ≤ k) (x : BitVec 32) :
    x &&& ~~~notIn.storage.getD k 0 = x := by
  rw [getD_eq_zero_of_le hk]
  apply BitVec.eq_of_getLsbD_eq
  intro j hj
  rw [BitVec.getLsbD_and, BitVec.getLsbD_not, getLsbD_zero, decide_eq_true hj, Bool.not_false,
    Bool.and_true, Bool.and_true]

/-- `UnionIfNotIn` with no bit set in `union_with` changes nothing. -/
theorem unionIfNotIn_of_none (hh : unionWith.getHighestBitSet = -1) :
    v.unionIfNotIn unionWith notIn = (v, false) := by
  simp only [unionIfNotIn, hh, if_true]

/-- `UnionIfNotIn` once the highest bit `h` of `union_with` is known: grow to the word of `h` if
the storage is shorter, or in the masked words up to `not_in`'s end, then the plain ones. -/
theorem unionIfNotIn_of_highest {h : Nat} (hh : unionWith.getHighestBitSet = h)
    (hlt : h < 2 ^ 31) :
    v.unionIfNotIn unionWith notIn =
      let u := if v.storage.length < h / 32 + 1 then v.ensureSize h else v
      let minSize := min notIn.storage.length (h / 32 + 1)
      let result := updateLoop (fun idx existing =>
        existing ||| (unionWith.getRawStorageWord idx &&& ~~~notIn.getRawStorageWord idx)) 0
        minSize (u.storage, false)
      let result := updateLoop (fun idx existing => existing ||| unionWith.getRawStorageWord idx)
        minSize (h / 32 + 1 - minSize) result
      (⟨result.1⟩, result.2) := by
  have hne : (h : Int) ≠ -1 := by omega
  simp only [unionIfNotIn, hh, hne, if_false, bitsToWords_succ hlt,
    u32I_natCast (by omega : h < 2 ^ 32)]

variable (hu : unionWith.storage.length ≤ 2 ^ 26)
include hu

theorem getD_unionIfNotIn (k : Nat) :
    (v.unionIfNotIn unionWith notIn).1.storage.getD k 0 =
      v.storage.getD k 0 ||| (unionWith.storage.getD k 0 &&& ~~~notIn.storage.getD k 0) := by
  rcases unionWith.getHighestBitSet_spec hu with ⟨hh, hnone⟩ | ⟨h, hh, hbit, hle⟩
  · rw [v.unionIfNotIn_of_none unionWith notIn hh, getD_eq_zero_of_bit_eq_false hnone]
    simp
  · obtain ⟨hlt, -⟩ := highest_lt hu hbit
    rw [v.unionIfNotIn_of_highest unionWith notIn hh hlt]
    dsimp only
    obtain ⟨hlen, -, hwords⟩ := v.grown_spec hlt
    generalize (if v.storage.length < h / 32 + 1 then v.ensureSize h else v) = u at hlen hwords
    rw [updateLoop_fst, updateLoop_fst]
    dsimp only
    rw [getD_storeLoop _ (by rw [length_storeLoop]; omega), getD_storeLoop _ (by omega), hwords]
    unfold getRawStorageWord
    -- the words below `min`, those up to the word of bit `h`, and those past it
    split_ifs with h1 h2
    · omega
    · rw [and_not_getD_of_le notIn (by omega)]
    · rfl
    · rw [getD_eq_zero_of_bit_le hle (by omega : h / 32 < k)]
      simp

theorem length_unionIfNotIn_le :
    (v.unionIfNotIn unionWith notIn).1.storage.length ≤
      max v.storage.length unionWith.storage.length := by
  rcases unionWith.getHighestBitSet_spec hu with ⟨hh, -⟩ | ⟨h, hh, hbit, -⟩
  · rw [v.unionIfNotIn_of_none unionWith notIn hh]
    exact le_max_left _ _
  · obtain ⟨hlt, hword⟩ := highest_lt hu hbit
    simp only [v.unionIfNotIn_of_highest unionWith notIn hh hlt, updateLoop_fst, length_storeLoop]
    have := (v.grown_spec hlt).2.1
    omega

/-- `UnionIfNotIn` reports a change exactly when a word changes; growing alone is no change. -/
theorem unionIfNotIn_snd_iff :
    (v.unionIfNotIn unionWith notIn).2 = true ↔ ∃ k,
      v.storage.getD k 0 ||| (unionWith.storage.getD k 0 &&& ~~~notIn.storage.getD k 0) ≠
        v.storage.getD k 0 := by
  rcases unionWith.getHighestBitSet_spec hu with ⟨hh, hnone⟩ | ⟨h, hh, hbit, hle⟩
  · simp only [v.unionIfNotIn_of_none unionWith notIn hh, getD_eq_zero_of_bit_eq_false hnone]
    simp
  · obtain ⟨hlt, -⟩ := highest_lt hu hbit
    rw [v.unionIfNotIn_of_highest unionWith notIn hh hlt]
    dsimp only
    obtain ⟨hlen, -, hwords⟩ := v.grown_spec hlt
    generalize (if v.storage.length < h / 32 + 1 then v.ensureSize h else v) = u at hlen hwords
    have hlen1 : 0 + min notIn.storage.length (h / 32 + 1) ≤ u.storage.length := by omega
    rw [updateLoop_snd_iff _ (by simp only [updateLoop_fst, length_storeLoop]; omega), updateLoop_fst,
      updateLoop_snd_iff _ hlen1]
    dsimp only
    simp only [getD_storeLoop _ hlen1, hwords, getRawStorageWord]
    constructor
    · rintro ((hf | ⟨k, -, -, hk⟩) | ⟨k, hk1, hk2, hk⟩)
      · exact absurd hf Bool.false_ne_true
      · exact ⟨k, hk⟩
      · -- from `min` on, `not_in` has no words
        rw [if_neg (by omega)] at hk
        exact ⟨k, by rwa [and_not_getD_of_le notIn (by omega)]⟩
    · rintro ⟨k, hk⟩
      have hks : k < h / 32 + 1 := by
        by_contra hge
        rw [getD_eq_zero_of_bit_le hle (by omega : h / 32 < k)] at hk
        simp at hk
      rcases Nat.lt_or_ge k (min notIn.storage.length (h / 32 + 1)) with hkm | hkm
      · exact Or.inl (Or.inr ⟨k, Nat.zero_le _, by omega, hk⟩)
      · refine Or.inr ⟨k, hkm, by omega, ?_⟩
        rw [if_neg (by omega)]
        rwa [and_not_getD_of_le notIn (by omega)] at hk

variable (hv : v.storage.length ≤ 2 ^ 26)
include hv

theorem members_unionIfNotIn (hn : notIn.storage.length < 2 ^ 27) :
    (v.unionIfNotIn unionWith notIn).1.members = v.members ∪ (unionWith.members \ notIn.members) := by
  have hlen := v.length_unionIfNotIn_le unionWith notIn hu
  ext i
  rw [mem_members _ (by omega), Finset.mem_union, Finset.mem_sdiff, v.mem_members (by omega),
    unionWith.mem_members (by omega), notIn.mem_members hn]
  unfold bit
  rw [v.getD_unionIfNotIn unionWith notIn hu, BitVec.getLsbD_or, BitVec.getLsbD_and,
    BitVec.getLsbD_not, decide_eq_true (Nat.mod_lt i (by decide : 0 < 32))]
  simp

theorem unionIfNotIn_snd_iff_members :
    (v.unionIfNotIn unionWith notIn).2 = true ↔ (v.unionIfNotIn unionWith notIn).1.members ≠ v.members := by
  have hlen := v.length_unionIfNotIn_le unionWith notIn hu
  rw [v.unionIfNotIn_snd_iff unionWith notIn hu, Ne, members_eq_iff (by omega) (by omega), not_forall]
  simp only [v.getD_unionIfNotIn unionWith notIn hu]

end UnionIfNotIn

section Operations

variable (src : BitVector)

theorem getD_intersect (k : Nat) :
    (v.intersect src).storage.getD k 0 = v.storage.getD k 0 &&& src.storage.getD k 0 := by
  simp only [intersect]
  generalize hm : (if v.storage.length < src.storage.length then v.storage.length
    else src.storage.length) = m
  have hmv : m ≤ v.storage.length := by rw [← hm]; split_ifs <;> omega
  have hms : m = v.storage.length ∨ m = src.storage.length := by
    rw [← hm]; split_ifs <;> simp
  rw [getD_storeLoop _ (by rw [length_storeLoop]; omega), length_storeLoop,
    getD_storeLoop _ (by omega)]
  unfold getRawStorageWord
  split_ifs with h1 h2
  · -- the words cleared past the shorter storage, where `src` has none
    rw [getD_eq_zero_of_le (by omega : src.storage.length ≤ k)]
    exact BitVec.and_zero.symm
  · rfl
  · rw [getD_eq_zero_of_le (by omega : v.storage.length ≤ k)]
    exact BitVec.zero_and.symm

theorem getD_subtract (k : Nat) :
    (v.subtract src).storage.getD k 0 = v.storage.getD k 0 &&& ~~~src.storage.getD k 0 := by
  simp only [subtract]
  generalize hm : (if v.storage.length > src.storage.length then src.storage.length
    else v.storage.length) = m
  have hmv : m ≤ v.storage.length := by rw [← hm]; split_ifs <;> omega
  have hms : m = v.storage.length ∨ m = src.storage.length := by
    rw [← hm]; split_ifs <;> simp
  rw [getD_storeLoop _ (by omega)]
  unfold getRawStorageWord
  split_ifs with h1
  · rfl
  · -- past the shorter storage either word is zero
    rcases hms with rfl | rfl
    · rw [getD_eq_zero_of_le (by omega : v.storage.length ≤ k)]
      exact BitVec.zero_and.symm
    · rw [and_not_getD_of_le src (by omega)]

theorem length_intersect : (v.intersect src).storage.length = v.storage.length := by
  simp only [intersect, length_storeLoop]

theorem length_subtract : (v.subtract src).storage.length = v.storage.length := by
  simp only [subtract, length_storeLoop]

theorem members_intersect (hv : v.storage.length < 2 ^ 27) (hsrc : src.storage.length < 2 ^ 27) :
    (v.intersect src).members = v.members ∩ src.members := by
  ext i
  rw [mem_members _ (by rw [length_intersect]; exact hv), Finset.mem_inter, v.mem_members hv,
    src.mem_members hsrc]
  unfold bit
  rw [getD_intersect, BitVec.getLsbD_and, Bool.and_eq_true]

theorem members_subtract (hv : v.storage.length < 2 ^ 27) (hsrc : src.storage.length < 2 ^ 27) :
    (v.subtract src).members = v.members \ src.members := by
  ext i
  rw [mem_members _ (by rw [length_subtract]; exact hv), Finset.mem_sdiff, v.mem_members hv,
    src.mem_members hsrc]
  unfold bit
  rw [getD_subtract, BitVec.getLsbD_and, BitVec.getLsbD_not,
    decide_eq_true (Nat.mod_lt i (by decide : 0 < 32))]
  simp

/-- `Copy` with no bit set in `src` clears every word. -/
theorem copy_of_none (hh : src.getHighestBitSet = -1) : v.copy src = v.clearAllBits := by
  simp only [copy, hh, if_true]

/-- `Copy` once the highest bit `h` of `src` is known: set bit `h`, copy the words of `src` up to
its word, and clear the words after it. -/
theorem copy_of_highest {h : Nat} (hh : src.getHighestBitSet = h) (hlt : h < 2 ^ 31) :
    v.copy src =
      let size := 1 + h / kWordBits
      let storage := storeLoop (fun idx _ => src.getRawStorageWord idx) 0 size (v.setBit h).storage
      let left := storage.length - size
      ⟨if left > 0 then storeLoop (fun _ _ => 0) size left storage else storage⟩ := by
  have hne : (h : Int) ≠ -1 := by omega
  simp only [copy, hh, hne, if_false, u32I_natCast (by omega : h < 2 ^ 32)]

variable (hsrc : src.storage.length ≤ 2 ^ 26)
include hsrc

theorem getD_copy (k : Nat) : (v.copy src).storage.getD k 0 = src.storage.getD k 0 := by
  rcases src.getHighestBitSet_spec hsrc with ⟨hh, hnone⟩ | ⟨h, hh, hbit, hle⟩
  · rw [v.copy_of_none src hh, getD_clearAllBits, getD_eq_zero_of_bit_eq_false hnone]
  · obtain ⟨hlt, -⟩ := highest_lt hsrc hbit
    rw [v.copy_of_highest src hh hlt]
    dsimp only
    have hlen := (v.length_setBit (show h < 2 ^ 32 - 32 by omega)).1
    generalize v.setBit h = u at hlen
    unfold kWordBits
    -- the words above that of bit `h` are zero in `src`
    have hzero : ∀ k, h / 32 < k → src.storage.getD k 0 = 0 := fun k hk =>
      getD_eq_zero_of_bit_le hle hk
    split_ifs with hleft
    · rw [getD_storeLoop _ (by rw [length_storeLoop]; omega), length_storeLoop,
        getD_storeLoop _ (by omega)]
      unfold getRawStorageWord
      split_ifs with h1 h2
      · exact (hzero k (by omega)).symm
      · rfl
      · rw [getD_eq_zero_of_le (by omega), hzero k (by omega)]
    · rw [getD_storeLoop _ (by omega)]
      unfold getRawStorageWord
      split_ifs with h1
      · rfl
      · rw [getD_eq_zero_of_le (by rw [length_storeLoop] at hleft; omega), hzero k (by omega)]

theorem length_copy_le : (v.copy src).storage.length ≤ max v.storage.length src.storage.length := by
  rcases src.getHighestBitSet_spec hsrc with ⟨hh, -⟩ | ⟨h, hh, hbit, -⟩
  · rw [v.copy_of_none src hh, clearAllBits, List.length_replicate]
    exact le_max_left _ _
  · obtain ⟨hlt, hword⟩ := highest_lt hsrc hbit
    rw [v.copy_of_highest src hh hlt]
    dsimp only
    have hlen := (v.length_setBit (show h < 2 ^ 32 - 32 by omega)).2
    split_ifs <;> simp only [length_storeLoop] <;> omega

theorem members_copy (hv : v.storage.length < 2 ^ 27) : (v.copy src).members = src.members := by
  have hlen := v.length_copy_le src hsrc
  exact (members_eq_iff (by omega) (by omega)).2 (v.getD_copy src hsrc)

end Operations

section Compare

variable (src : BitVector)

theorem getHighestBitSet_eq_of_members_eq {u v : BitVector} (hu : u.storage.length ≤ 2 ^ 26)
    (hv : v.storage.length ≤ 2 ^ 26) (h : u.members = v.members) :
    u.getHighestBitSet = v.getHighestBitSet :=
  IsHighest.unique (bit_eq_iff.2 ((members_eq_iff (by omega) (by omega)).1 h))
    (u.getHighestBitSet_spec hu) (v.getHighestBitSet_spec hv)

/-- From a common highest bit `h` on, two word lists have the same bits. -/
theorem bit_eq_of_highest_le {ws ws' : List (BitVec 32)} {h i : Nat} (hbit : bit ws h = true)
    (hle : ∀ i, bit ws i = true → i ≤ h) (hbit' : bit ws' h = true)
    (hle' : ∀ i, bit ws' i = true → i ≤ h) (hi : h ≤ i) : bit ws i = bit ws' i := by
  rcases Nat.eq_or_lt_of_le hi with rfl | hlt
  · rw [hbit, hbit']
  · have hf : ∀ {us : List (BitVec 32)}, (∀ i, bit us i = true → i ≤ h) → bit us i = false :=
      fun hle => Bool.eq_false_iff.2 fun hb => absurd (hle _ hb) (by omega)
    rw [hf hle, hf hle']

/-- `SameBitsSet` compares `BitsToWords(h)` words: the word of bit `h` is left out only when `h` is
its lowest bit, and then that word is `1` in both vectors. -/
theorem words_eq_of_highest {ws ws' : List (BitVec 32)} {h : Nat} (hbit : bit ws h = true)
    (hle : ∀ i, bit ws i = true → i ≤ h) (hbit' : bit ws' h = true)
    (hle' : ∀ i, bit ws' i = true → i ≤ h) :
    (∀ k, k < (h + 31) / 32 → ws.getD k 0 = ws'.getD k 0) ↔ ∀ k, ws.getD k 0 = ws'.getD k 0 := by
  refine ⟨fun hlow k => ?_, fun hall k _ => hall k⟩
  rcases Nat.lt_or_ge k ((h + 31) / 32) with hk | hk
  · exact hlow k hk
  · rcases Nat.lt_or_ge (h / 32) k with hk' | hk'
    · rw [getD_eq_zero_of_bit_le hle hk', getD_eq_zero_of_bit_le hle' hk']
    · -- `k` is the word of bit `h`, and `h` is its bit 0
      apply BitVec.eq_of_getLsbD_eq
      intro j hj
      rw [← bit_mul_add ws k hj, ← bit_mul_add ws' k hj]
      exact bit_eq_of_highest_le hbit hle hbit' hle' (by omega)

variable (hv : v.storage.length ≤ 2 ^ 26) (hsrc : src.storage.length ≤ 2 ^ 26)
include hv hsrc

theorem sameBitsSet_iff : v.sameBitsSet src = true ↔ v.members = src.members := by
  unfold sameBitsSet
  by_cases hne : v.getHighestBitSet = src.getHighestBitSet
  · rw [if_neg (not_not.2 hne)]
    rcases v.getHighestBitSet_spec hv with ⟨hh, hnone⟩ | ⟨h, hh, hbit, hle⟩ <;>
      rcases src.getHighestBitSet_spec hsrc with ⟨hh', hnone'⟩ | ⟨h', hh', hbit', hle'⟩ <;>
      rw [hh] at hne ⊢ <;> rw [hh'] at hne
    · -- both are empty
      rw [if_pos (by decide), members_eq_iff (by omega) (by omega)]
      exact ⟨fun _ k => (getD_eq_zero_of_bit_eq_false hnone k).trans
        (getD_eq_zero_of_bit_eq_false hnone' k).symm, fun _ => rfl⟩
    · omega
    · omega
    · obtain rfl : h = h' := by omega
      obtain ⟨hlt, -⟩ := highest_lt hv hbit
      rw [members_eq_iff (by omega) (by omega), ← words_eq_of_highest hbit hle hbit' hle']
      by_cases h0 : (h : Int) ≤ 0
      · -- one bit, bit 0: no word is compared
        rw [if_pos h0]
        exact ⟨fun _ k hk => absurd hk (by omega), fun _ => rfl⟩
      · rw [if_neg h0, List.all_eq_true, u32I_natCast (by omega), bitsToWords_eq (by omega)]
        simp only [List.mem_range, beq_iff_eq, getRawStorageWord]
  · rw [if_pos hne]
    exact ⟨fun h => absurd h Bool.false_ne_true,
      fun h => absurd (getHighestBitSet_eq_of_members_eq hv hsrc h) hne⟩

theorem isSubsetOf_iff : v.isSubsetOf src = true ↔ v.members ⊆ src.members := by
  unfold isSubsetOf
  rcases v.getHighestBitSet_spec hv with ⟨hh, hnone⟩ | ⟨h, hh, hbit, hle⟩
  · -- no member
    rw [hh, if_pos (by decide), v.members_eq_empty hnone]
    exact ⟨fun _ => Finset.empty_subset _, fun _ => rfl⟩
  · obtain ⟨hlt, -⟩ := highest_lt hv hbit
    rw [hh, if_neg (by omega)]
    by_cases hgt : (h : Int) > src.getHighestBitSet
    · -- the highest member is not one of `src`
      rw [if_pos hgt]
      refine ⟨fun h => absurd h Bool.false_ne_true, fun hsub => ?_⟩
      have hmem := hsub ((v.mem_members (by omega)).2 hbit)
      rw [src.mem_members (by omega)] at hmem
      rcases src.getHighestBitSet_spec hsrc with ⟨-, hnone'⟩ | ⟨h', hh', -, hle'⟩
      · rw [hnone'] at hmem
        exact absurd hmem Bool.false_ne_true
      · have := hle' h hmem
        omega
    · rw [if_neg hgt, members_subset_iff (by omega) (by omega), List.all_eq_true,
        bitsToWords_succ hlt]
      simp only [List.mem_range, beq_iff_eq, getRawStorageWord]
      refine ⟨fun hlow k => ?_, fun hall k _ => hall k⟩
      rcases Nat.lt_or_ge k (h / 32 + 1) with hk | hk
      · exact hlow k hk
      · -- above the word of bit `h` this vector has no bits
        rw [getD_eq_zero_of_bit_le hle (by omega : h / 32 < k)]
        exact BitVec.zero_or

end Compare

section Count

/-- `~(0xffffffffu << r)` keeps the low `r` bits of a word. -/
theorem cpop_and_not_shiftLeft (x : BitVec 32) {r : Nat} (hr : r < 32) :
    (x &&& ~~~((0xffffffff : BitVec 32) <<< r)).cpop.toNat = (List.range r).countP x.getLsbD := by
  rw [Art.BitVec.toNat_cpop_eq_countP]
  have hbits : (x &&& ~~~((0xffffffff : BitVec 32) <<< r)).getLsbD =
      fun j => decide (j < r) && x.getLsbD j := by
    funext j
    rw [show (0xffffffff : BitVec 32) = BitVec.allOnes 32 by decide, BitVec.getLsbD_and,
      BitVec.getLsbD_not, BitVec.getLsbD_shiftLeft, BitVec.getLsbD_allOnes]
    by_cases hj : j < 32
    · by_cases hjr : j < r
      · simp [hj, hjr]
      · simp [hj, hjr]
        omega
    · simp [hj, BitVec.getLsbD_of_ge x j (by omega), show ¬j < r by omega]
  rw [hbits, countP_range_and_lt (by omega)]

theorem numSetBitsStorage_eq (storage : List (BitVec 32)) (end_ : Nat) :
    numSetBitsStorage storage end_ = (List.range end_).countP (bit storage) := by
  have hrem : end_ &&& 0x1f = end_ % 32 := Nat.and_two_pow_sub_one_eq_mod end_ 5
  simp only [numSetBitsStorage, wordIndex_eq, hrem, foldl_cpop]
  split_ifs with hr
  · -- whole words, then the low bits of the next
    rw [cpop_and_not_shiftLeft _ (Nat.mod_lt _ (by decide)),
      ← countP_bit_add storage (end_ / 32) (Nat.le_of_lt (Nat.mod_lt _ (by decide))),
      Nat.div_add_mod' end_ 32]
  · rw [show end_ / 32 * 32 = end_ by omega]

theorem card_filter_range (p : Nat → Bool) (e : Nat) :
    ((Finset.range e).filter fun i => p i = true).card = (List.range e).countP p := by
  have hset : (Finset.range e).filter (fun i => p i = true) = ((List.range e).filter p).toFinset := by
    ext i
    simp [List.mem_range]
  rw [hset, List.toFinset_card_of_nodup (List.nodup_range.filter p), List.countP_eq_length_filter]

/-- `NumSetBits(end)` counts the members below `end`. -/
theorem numSetBits_eq_card (hv : v.storage.length < 2 ^ 27) (end_ : Nat) :
    v.numSetBits end_ = (v.members.filter (· < end_)).card := by
  have hset : v.members.filter (· < end_) = (Finset.range end_).filter fun i => bit v.storage i = true := by
    ext i
    rw [Finset.mem_filter, v.mem_members hv, Finset.mem_filter, Finset.mem_range]
    exact And.comm
  rw [hset, card_filter_range, numSetBits, numSetBitsStorage_eq]

end Count

section SetInitialBits

/-- The last, partial word `(1U << rem_num_bits) - 1`. -/
theorem shiftLeft_sub_one_eq {r : Nat} (hr : r < 32) :
    ((1 : BitVec 32) <<< r) - 1 = maskLeastSignificant 32 r := by
  unfold maskLeastSignificant
  rw [if_neg (by omega)]

variable {n : Nat} (hn : 0 < n) (hn' : n ≤ 2 ^ 32 - 32)
include hn hn'

theorem getD_setInitialBits (k : Nat) :
    (v.setInitialBits n).storage.getD k 0 =
      if k < n / 32 then BitVec.allOnes 32
      else if k = n / 32 then maskLeastSignificant 32 (n % 32) else 0 := by
  have hrem : n &&& 0x1f = n % 32 := Nat.and_two_pow_sub_one_eq_mod n 5
  simp only [setInitialBits, Nat.pos_iff_ne_zero.1 hn, if_false, wordIndex_eq, hrem]
  have hlen := (v.length_setBit (show n - 1 < 2 ^ 32 - 32 by omega)).1
  generalize v.setBit (n - 1) = u at hlen
  -- the words of all ones come first, and there are no more of them than words
  have hones : n / 32 ≤ u.storage.length := by omega
  by_cases hr : n % 32 = 0
  · simp only [hr, ne_eq, not_true_eq_false, if_false]
    rw [getD_storeLoop_zero, show maskLeastSignificant 32 0 = 0 by decide]
    rcases Nat.lt_or_ge k (n / 32) with hk | hk
    · rw [if_neg (by omega), getD_storeLoop _ (by omega), if_pos (by omega), if_pos hk]
    · rw [if_pos hk, if_neg (by omega), ite_self]
  · simp only [hr, ne_eq, not_false_eq_true, if_true]
    have hlast : n / 32 < u.storage.length := by omega
    rw [getD_storeLoop_zero, getD_set _ (by rw [length_storeLoop]; exact hlast),
      shiftLeft_sub_one_eq (Nat.mod_lt n (by decide))]
    rcases Nat.lt_trichotomy k (n / 32) with hk | rfl | hk
    · rw [if_neg (by omega), if_neg (by omega), getD_storeLoop _ (by omega), if_pos (by omega),
        if_pos hk]
    · rw [if_neg (by omega), if_pos rfl, if_neg (Nat.lt_irrefl _), if_pos rfl]
    · rw [if_pos (by omega), if_neg (by omega), if_neg (by omega)]

omit hn' in
/-- `SetInitialBits` grows the storage as `SetBit(num_bits - 1)` does, and no further. -/
theorem length_setInitialBits :
    (v.setInitialBits n).storage.length = (v.setBit (n - 1)).storage.length := by
  simp only [setInitialBits, Nat.pos_iff_ne_zero.1 hn, if_false]
  split_ifs <;> simp only [length_storeLoop, List.length_set]

theorem bit_setInitialBits (i : Nat) :
    bit (v.setInitialBits n).storage i = decide (i < n) := by
  unfold bit
  rw [v.getD_setInitialBits hn hn']
  split_ifs with h1 h2
  · rw [BitVec.getLsbD_allOnes, decide_eq_true (Nat.mod_lt i (by decide)), decide_eq_true (by omega)]
  · rw [getLsbD_maskLeastSignificant, decide_eq_true (Nat.mod_lt i (by decide)), Bool.true_and]
    exact decide_eq_decide.2 (by omega)
  · rw [getLsbD_zero, decide_eq_false (by omega)]

omit hn in
theorem setInitialBits_fits (hv : v.storage.length < 2 ^ 27) :
    (v.setInitialBits n).storage.length < 2 ^ 27 := by
  rcases Nat.eq_zero_or_pos n with rfl | hn
  · rw [setInitialBits, if_pos rfl, clearAllBits, List.length_replicate]
    exact hv
  · rw [v.length_setInitialBits hn]
    exact v.setBit_fits hv (by omega)

omit hn in
theorem members_setInitialBits (hv : v.storage.length < 2 ^ 27) :
    (v.setInitialBits n).members = Finset.range n := by
  rcases Nat.eq_zero_or_pos n with rfl | hn
  · rw [setInitialBits, if_pos rfl, members_clearAllBits, Finset.range_zero]
  · ext i
    rw [mem_members _ (v.setInitialBits_fits hn' hv), v.bit_setInitialBits hn hn',
      decide_eq_true_iff, Finset.mem_range]

end SetInitialBits

end BitVector

end Art
