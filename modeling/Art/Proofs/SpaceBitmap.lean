import Mathlib
import Art.Runtime.SpaceBitmap

/-!
# Space bitmaps against their bits

The words of a bitmap hold the set `WordBits.bit` of bit positions, bit `j` standing for the
address `heap_begin_ + j * kAlignment` (`address`).  `Test` reads that bit (`test_address`) and
`Modify` writes it and no other (`bit_modify`).

`VisitMarkedRange` splits its range into a left edge, whole words and a right edge, each the set
bits of one masked word (`visitWord_window`, `visitWords_eq`); together they are the set bits of
the range, as the reference loop under `#if 0` visits them (`visitMarkedRange_eq_reference`).
That holds except when the range starts at the end of the bitmap's last word: the left edge is
then read from the word after the bitmap, which `VisitMarkedRange(HeapLimit(), HeapLimit())` does
for every heap that fills its words (`visitMarkedRange_heapLimit_eq_none`).  `Walk` visits the
set bits of every word (`walk_eq_reference`).

`ClearRange`'s two loops clear single bits up to word boundaries (`clearRangeHead_spec`,
`clearRangeTail_spec`) and the words between are zeroed, which clears exactly the range
(`bit_clearRange`, `test_clearRange`).  `SweepWalk` keeps room in its buffer for one more word of
pointers (`SweepInv`, `sweepWord_spec`), so every batch it passes fits, and the batches together
are the garbage bits of the swept words, `live & ~mark` (`garbage`, `sweepWalk_eq`).
-/

namespace Art

namespace SpaceBitmap

open WordBits

variable {kAlignment : Nat}

/-- The address of bit `j`. -/
def address (b : SpaceBitmap kAlignment) (j : Nat) : Nat := b.heapBegin + j * kAlignment

theorem and_shiftLeft_ne_zero (x : BitmapWord) {s : Nat} (hs : s < kBitsPerIntPtrT) :
    (x &&& BitVec.ofNat kBitsPerIntPtrT 1 <<< s != 0) = x.getLsbD s := by
  rw [← BitVec.twoPow_eq, BitVec.and_twoPow]
  split_ifs with h
  · have hne : BitVec.twoPow kBitsPerIntPtrT s ≠ BitVec.ofNat kBitsPerIntPtrT 0 := fun h0 => by
      have := congrArg BitVec.toNat h0
      rw [BitVec.toNat_twoPow_of_lt hs] at this
      simp at this
    simp [h, hne]
  · simp [h]

/-- `Test` reads the bit of the address's offset. -/
theorem test_eq_bit (b : SpaceBitmap kAlignment) (addr : Nat) :
    b.test addr = bit b.words ((addr - b.heapBegin) / kAlignment) := by
  unfold test bit offsetToIndex offsetToMask offsetBitIndex
  exact and_shiftLeft_ne_zero _ (Nat.mod_lt _ (by decide))

theorem test_address (b : SpaceBitmap kAlignment) (j : Nat) :
    b.test (b.address j) = bit b.words j := by
  rw [test_eq_bit, address, Nat.add_sub_cancel_left, Nat.mul_div_cancel _ b.alignment_pos]

/-- The reference loop from bit `p` to bit `q` visits the addresses of the set bits between. -/
theorem visitMarkedRangeReference_address (b : SpaceBitmap kAlignment) {p q : Nat} (h : p ≤ q) :
    b.visitMarkedRangeReference (b.address p) (b.address q) =
      ((List.range' p (q - p)).filter (bit b.words)).map b.address := by
  induction hn : q - p generalizing p with
  | zero =>
    have : q = p := by omega
    subst this
    rw [visitMarkedRangeReference, if_neg (Nat.lt_irrefl _)]
    rfl
  | succ n ih =>
    have hlt : b.address p < b.address q := by
      unfold address
      have := b.alignment_pos
      exact Nat.add_lt_add_left (Nat.mul_lt_mul_of_pos_right (by omega) this) _
    rw [visitMarkedRangeReference, if_pos hlt, show b.address p + kAlignment = b.address (p + 1) by
      unfold address; rw [Nat.add_mul, Nat.one_mul, Nat.add_assoc], ih (by omega) (by omega),
      List.range'_succ, List.filter_cons, test_address]
    split <;> rfl


@[simp] theorem address_sub_heapBegin (b : SpaceBitmap kAlignment) (j : Nat) :
    b.address j - b.heapBegin = j * kAlignment := Nat.add_sub_cancel_left _ _

/-- A word masked to the window `[s, e)` of word `k` visits the set bits of that window. -/
theorem visitWord_window (b : SpaceBitmap kAlignment) (k : Nat) {s e : Nat} (hs : s ≤ e)
    (he : e ≤ kBitsPerIntPtrT) {y : BitmapWord}
    (hy : ∀ j < kBitsPerIntPtrT,
      y.getLsbD j = ((b.words.getD k 0).getLsbD j && (decide (s ≤ j) && decide (j < e)))) :
    visitWord kAlignment (indexToOffset kAlignment k + b.heapBegin) y =
      ((List.range' (k * kBitsPerIntPtrT + s) (e - s)).filter (bit b.words)).map b.address := by
  unfold visitWord
  rw [setBits_of_window hs he hy, filter_bit_range'_word b.words k (by omega), List.map_map]
  congr 1
  funext j
  simp only [Function.comp_apply, address, indexToOffset]
  ring

/-- The loop over whole words visits the addresses of their set bits. -/
theorem visitWords_eq (b : SpaceBitmap kAlignment) {i n : Nat} (h : i + n ≤ b.words.length) :
    b.visitWords i n = some (((List.range' (i * kBitsPerIntPtrT) (n * kBitsPerIntPtrT)).filter
      (bit b.words)).map b.address) := by
  induction n generalizing i with
  | zero => simp [visitWords]
  | succ n ih =>
    have hword := visitWord_window b i (Nat.zero_le _) (Nat.le_refl _) (y := b.words.getD i 0)
      fun j hj => by simp [hj]
    rw [visitWords, List.getElem?_eq_getElem (by omega), ← List.getD_eq_getElem _ 0,
      ih (by omega)]
    simp only [Option.bind_eq_bind, Option.bind_some, Option.pure_def]
    rw [hword, Nat.add_zero, Nat.sub_zero, ← List.map_append, ← List.filter_append,
      Nat.succ_mul, List.range'_append_1, Nat.succ_mul, Nat.add_comm (n * _)]


/-- `VisitMarkedRange` from bit `p` to bit `q`, when the word of `p` is in the bitmap, visits the
addresses of the set bits between. -/
theorem visitMarkedRange_address (b : SpaceBitmap kAlignment) {p q : Nat} (hpq : p ≤ q)
    (hq : q ≤ b.words.length * kBitsPerIntPtrT) (hp : p < b.words.length * kBitsPerIntPtrT) :
    b.visitMarkedRange (b.address p) (b.address q) =
      some (((List.range' p (q - p)).filter (bit b.words)).map b.address) := by
  have hW : kBitsPerIntPtrT = 64 := rfl
  have his : p / kBitsPerIntPtrT < b.words.length := by rw [hW] at hp ⊢; omega
  have hps : p % kBitsPerIntPtrT < kBitsPerIntPtrT := Nat.mod_lt _ (by decide)
  have hqs : q % kBitsPerIntPtrT < kBitsPerIntPtrT := Nat.mod_lt _ (by decide)
  unfold visitMarkedRange
  simp only [address_sub_heapBegin, offsetToIndex, Nat.mul_div_cancel _ b.alignment_pos]
  rw [List.getElem?_eq_getElem his, ← List.getD_eq_getElem _ 0]
  simp only [Option.bind_eq_bind, Option.bind_some, Option.pure_def]
  -- two words or more: the left edge's bits from `bit_start`, the words between, and the right
  -- edge's bits below `bit_end`, which are none when `visit_end` starts a word
  have hqi : q / kBitsPerIntPtrT ≤ b.words.length := by rw [hW] at hq ⊢; omega
  have hleft := visitWord_window b (p / kBitsPerIntPtrT) (s := p % kBitsPerIntPtrT)
    (e := kBitsPerIntPtrT) hps.le (Nat.le_refl _) fun j hj => getLsbD_and_not_lowMask _ hps hj
  have hright : ∀ y : BitmapWord,
      (q % kBitsPerIntPtrT ≠ 0 → y = b.words.getD (q / kBitsPerIntPtrT) 0) →
      visitWord kAlignment (indexToOffset kAlignment (q / kBitsPerIntPtrT) + b.heapBegin)
          (y &&& (BitVec.ofNat kBitsPerIntPtrT 1 <<< (q % kBitsPerIntPtrT)) - 1) =
        ((List.range' (q / kBitsPerIntPtrT * kBitsPerIntPtrT) (q % kBitsPerIntPtrT)).filter
          (bit b.words)).map b.address := fun y hy => by
    have := visitWord_window b _ (Nat.zero_le _) hqs.le (y := y &&& _) fun j hj => by
      rw [getLsbD_and_lowMask _ hqs, decide_eq_true (Nat.zero_le j), Bool.true_and]
      by_cases hz : q % kBitsPerIntPtrT = 0
      · rw [hz]
        simp
      · rw [hy hz]
    rwa [Nat.add_zero, Nat.sub_zero] at this
  have hsplit : p / kBitsPerIntPtrT < q / kBitsPerIntPtrT →
      List.range' (p / kBitsPerIntPtrT * kBitsPerIntPtrT + p % kBitsPerIntPtrT)
        (kBitsPerIntPtrT - p % kBitsPerIntPtrT) ++
      List.range' ((p / kBitsPerIntPtrT + 1) * kBitsPerIntPtrT)
        ((q / kBitsPerIntPtrT - (p / kBitsPerIntPtrT + 1)) * kBitsPerIntPtrT) ++
      List.range' (q / kBitsPerIntPtrT * kBitsPerIntPtrT) (q % kBitsPerIntPtrT) =
        List.range' p (q - p) := fun hlt => by
    rw [show p / kBitsPerIntPtrT * kBitsPerIntPtrT + p % kBitsPerIntPtrT = p by rw [hW]; omega,
      show kBitsPerIntPtrT - p % kBitsPerIntPtrT = (p / kBitsPerIntPtrT + 1) * kBitsPerIntPtrT - p
        by rw [hW]; omega,
      show (q / kBitsPerIntPtrT - (p / kBitsPerIntPtrT + 1)) * kBitsPerIntPtrT =
        q / kBitsPerIntPtrT * kBitsPerIntPtrT - (p / kBitsPerIntPtrT + 1) * kBitsPerIntPtrT
        by rw [hW]; omega,
      show q % kBitsPerIntPtrT = q - q / kBitsPerIntPtrT * kBitsPerIntPtrT by rw [hW]; omega,
      range'_sub_append (by rw [hW]; omega) (by rw [hW] at hlt ⊢; omega),
      range'_sub_append (by rw [hW] at hlt ⊢; omega) (by rw [hW]; omega)]
  split_ifs with hlt hqz
  · rw [visitWords_eq b (by omega), Option.bind_some, hleft, hright 0 fun h => absurd hqz h,
      ← List.map_append, ← List.map_append, ← List.filter_append, ← List.filter_append,
      hsplit hlt]
  · have hqlt : q / kBitsPerIntPtrT < b.words.length := by rw [hW] at hq hqz ⊢; omega
    rw [visitWords_eq b (by omega), Option.bind_some, List.getElem?_eq_getElem hqlt,
      ← List.getD_eq_getElem _ 0, Option.bind_some, hleft, hright _ fun _ => rfl,
      ← List.map_append, ← List.map_append, ← List.filter_append, ← List.filter_append,
      hsplit hlt]
  · -- both ends in one word: the window `[bit_start, bit_end)` of it
    have hsame : q / kBitsPerIntPtrT = p / kBitsPerIntPtrT := by rw [hW] at hlt ⊢; omega
    rw [hsame, visitWord_window b _ (s := p % kBitsPerIntPtrT) (e := q % kBitsPerIntPtrT)
      (by rw [hW] at hsame ⊢; omega) hqs.le fun j hj => by
        rw [getLsbD_and_lowMask _ hqs, getLsbD_and_not_lowMask _ hps hj, decide_eq_true hj,
          Bool.and_true, Bool.and_assoc]]
    congr 4 <;> rw [hW] at hsame ⊢ <;> omega

/-- The words cover the heap: `ComputeBitmapSize` rounds up. -/
theorem heapLimit_le (b : SpaceBitmap kAlignment) :
    b.heapLimit ≤ b.heapBegin + b.words.length * (kAlignment * kBitsPerIntPtrT) := by
  have hcov : 0 < kAlignment * kBitsPerIntPtrT := Nat.mul_pos b.alignment_pos (by decide)
  have hlen : b.words.length * (kAlignment * kBitsPerIntPtrT) =
      roundUp (b.heapLimit - b.heapBegin) (kAlignment * kBitsPerIntPtrT) := by
    rw [b.size_eq, computeBitmapSize, roundUp, Nat.mul_div_cancel _ hcov]
  have h1 := Nat.div_add_mod (b.heapLimit - b.heapBegin + kAlignment * kBitsPerIntPtrT - 1)
    (kAlignment * kBitsPerIntPtrT)
  have h2 := Nat.mod_lt (b.heapLimit - b.heapBegin + kAlignment * kBitsPerIntPtrT - 1) hcov
  rw [roundUp] at hlen
  rw [Nat.mul_comm] at h1
  have := b.begin_lt_limit
  omega

/-- An aligned address in the heap is the address of its bit. -/
theorem address_div (b : SpaceBitmap kAlignment) {a : Nat} (hb : b.heapBegin ≤ a)
    (ha : a % kAlignment = 0) : b.address ((a - b.heapBegin) / kAlignment) = a := by
  have hdvd : kAlignment ∣ a - b.heapBegin :=
    Nat.dvd_of_mod_eq_zero (Nat.sub_mod_eq_zero_of_mod_eq (ha.trans b.begin_aligned.symm))
  rw [address, Nat.div_mul_cancel hdvd]
  omega

/-- `VisitMarkedRange` starting at the word past the bitmap reads that word. -/
theorem visitMarkedRange_eq_none (b : SpaceBitmap kAlignment) {p : Nat}
    (hp : b.words.length * kBitsPerIntPtrT ≤ p) (visitEnd : Nat) :
    b.visitMarkedRange (b.address p) visitEnd = none := by
  have hW : kBitsPerIntPtrT = 64 := rfl
  unfold visitMarkedRange
  simp only [address_sub_heapBegin, offsetToIndex, Nat.mul_div_cancel _ b.alignment_pos]
  rw [List.getElem?_eq_none (by rw [hW] at hp ⊢; omega)]
  rfl

/-- On aligned addresses of the heap, `VisitMarkedRange` visits what the reference loop visits,
except from the end of the bitmap's last word, where it reads the word after it. -/
theorem visitMarkedRange_eq_reference (b : SpaceBitmap kAlignment) {visitBegin visitEnd : Nat}
    (hb : b.heapBegin ≤ visitBegin) (hbe : visitBegin ≤ visitEnd)
    (he : visitEnd ≤ b.heapLimit) (hab : visitBegin % kAlignment = 0)
    (hae : visitEnd % kAlignment = 0) :
    b.visitMarkedRange visitBegin visitEnd =
      if visitBegin = b.heapBegin + b.words.length * (kAlignment * kBitsPerIntPtrT) then none
      else some (b.visitMarkedRangeReference visitBegin visitEnd) := by
  have hk := b.alignment_pos
  have hlim := heapLimit_le b
  have hp := address_div b hb hab
  have hq := address_div b (hb.trans hbe) hae
  have hpq : (visitBegin - b.heapBegin) / kAlignment ≤ (visitEnd - b.heapBegin) / kAlignment :=
    Nat.div_le_div_right (Nat.sub_le_sub_right hbe _)
  have hqle : (visitEnd - b.heapBegin) / kAlignment ≤ b.words.length * kBitsPerIntPtrT := by
    calc (visitEnd - b.heapBegin) / kAlignment
        ≤ (b.words.length * kBitsPerIntPtrT * kAlignment) / kAlignment :=
          Nat.div_le_div_right (by rw [Nat.mul_assoc, Nat.mul_comm kBitsPerIntPtrT]; omega)
      _ = b.words.length * kBitsPerIntPtrT := Nat.mul_div_cancel _ hk
  split_ifs with h
  · rw [← hp]
    refine visitMarkedRange_eq_none b ?_ _
    rw [h, Nat.add_sub_cancel_left, Nat.mul_comm kAlignment, ← Nat.mul_assoc,
      Nat.mul_div_cancel _ hk]
  · have hplt : (visitBegin - b.heapBegin) / kAlignment < b.words.length * kBitsPerIntPtrT := by
      refine Nat.lt_of_le_of_ne (hpq.trans hqle) fun hp' => h ?_
      rw [← hp, hp', address, Nat.mul_assoc, Nat.mul_comm kBitsPerIntPtrT]
    rw [← hp, ← hq, visitMarkedRange_address b hpq hqle hplt,
      visitMarkedRangeReference_address b hpq]


/-- A bitmap whose heap fills its last word: `VisitMarkedRange(HeapLimit(), HeapLimit())` reads the
word after the bitmap. -/
theorem visitMarkedRange_heapLimit_eq_none (b : SpaceBitmap kAlignment)
    (h : (b.heapLimit - b.heapBegin) % (kAlignment * kBitsPerIntPtrT) = 0) (visitEnd : Nat) :
    b.visitMarkedRange b.heapLimit visitEnd = none := by
  have hcov : 0 < kAlignment * kBitsPerIntPtrT := Nat.mul_pos b.alignment_pos (by decide)
  have hlim := heapLimit_le b
  obtain ⟨k, hk⟩ := Nat.dvd_of_mod_eq_zero h
  have hlen : b.words.length = k := by
    rw [b.size_eq, computeBitmapSize, roundUp, Nat.mul_div_cancel _ hcov, hk,
      Nat.add_sub_assoc (by omega), Nat.add_comm, Nat.add_mul_div_left _ _ hcov,
      Nat.div_eq_of_lt (by omega), Nat.zero_add]
  have hend : b.heapLimit = b.address (b.words.length * kBitsPerIntPtrT) := by
    rw [address, hlen, Nat.mul_assoc, Nat.mul_comm kBitsPerIntPtrT, Nat.mul_comm k, ← hk]
    have := b.begin_lt_limit
    omega
  rw [hend]
  exact visitMarkedRange_eq_none b (Nat.le_refl _) visitEnd

/-- From `HeapLimit()` of a bitmap of one whole word, `VisitMarkedRange` reads the word after the
bitmap, where the reference loop reads nothing. -/
theorem visit_marked_range_past_bitmap :
    let b : SpaceBitmap 8 := create 0x1000 0x200 (by decide) (by decide) (by decide)
    b.words.length = 1 ∧ b.visitMarkedRangeReference b.heapLimit b.heapLimit = [] ∧
      b.visitMarkedRange b.heapLimit b.heapLimit = none := by
  intro b
  refine ⟨by decide, ?_, by decide⟩
  rw [visitMarkedRangeReference, if_neg (Nat.lt_irrefl _)]


/-- `Walk`'s last word, `OffsetToIndex(HeapLimit() - heap_begin_ - 1)`, is the bitmap's last. -/
theorem walk_end_add_one (b : SpaceBitmap kAlignment) :
    offsetToIndex kAlignment (b.heapLimit - b.heapBegin - 1) + 1 = b.words.length := by
  have hcov : 0 < kAlignment * kBitsPerIntPtrT := Nat.mul_pos b.alignment_pos (by decide)
  have := b.begin_lt_limit
  rw [b.size_eq, computeBitmapSize, roundUp, Nat.mul_div_cancel _ hcov, offsetToIndex,
    Nat.div_div_eq_div_mul, show b.heapLimit - b.heapBegin + kAlignment * kBitsPerIntPtrT - 1 =
      b.heapLimit - b.heapBegin - 1 + kAlignment * kBitsPerIntPtrT by omega,
    Nat.add_div_right _ hcov]

/-- `Walk` visits the marked addresses of the whole bitmap, in increasing order. -/
theorem walk_eq_reference (b : SpaceBitmap kAlignment) :
    b.walk = some (b.visitMarkedRangeReference b.heapBegin
      (b.heapBegin + b.words.length * (kAlignment * kBitsPerIntPtrT))) := by
  have hbegin : b.heapBegin = b.address 0 := by rw [address, Nat.zero_mul, Nat.add_zero]
  have hend : b.heapBegin + b.words.length * (kAlignment * kBitsPerIntPtrT) =
      b.address (b.words.length * kBitsPerIntPtrT) := by
    rw [address, Nat.mul_assoc, Nat.mul_comm kBitsPerIntPtrT]
  rw [walk, walk_end_add_one, visitWords_eq b (by rw [Nat.zero_add]), hend,
    hbegin, visitMarkedRangeReference_address b (Nat.zero_le _), Nat.zero_mul, Nat.sub_zero]


@[simp] theorem heapBegin_modify (s : Bool) (b : SpaceBitmap kAlignment) (a : Nat) :
    (b.modify s a).heapBegin = b.heapBegin := rfl

@[simp] theorem length_modify (s : Bool) (b : SpaceBitmap kAlignment) (a : Nat) :
    (b.modify s a).words.length = b.words.length := by
  rw [(b.modify s a).size_eq, b.size_eq]
  rfl

theorem getLsbD_offsetMask {j : Nat} (t : Nat) :
    (BitVec.ofNat kBitsPerIntPtrT 1 <<< (j % kBitsPerIntPtrT)).getLsbD t =
      decide (t = j % kBitsPerIntPtrT) := by
  rw [← BitVec.twoPow_eq, BitVec.getLsbD_twoPow, decide_eq_true (Nat.mod_lt _ (by decide)),
    Bool.true_and, decide_eq_decide]
  exact eq_comm

/-- `Modify` sets or clears the object's bit and no other. -/
theorem bit_modify (s : Bool) (b : SpaceBitmap kAlignment) {j : Nat}
    (hj : j < b.words.length * kBitsPerIntPtrT) (i : Nat) :
    bit (b.modify s (b.address j)).words i = if i = j then s else bit b.words i := by
  have hW : kBitsPerIntPtrT = 64 := rfl
  have hk : j / kBitsPerIntPtrT < b.words.length := by rw [hW] at hj ⊢; omega
  have hsame : ∀ i, i / kBitsPerIntPtrT = j / kBitsPerIntPtrT →
      (i % kBitsPerIntPtrT = j % kBitsPerIntPtrT ↔ i = j) := fun i h => by rw [hW] at h ⊢; omega
  have hother : ∀ i, i / kBitsPerIntPtrT ≠ j / kBitsPerIntPtrT → i ≠ j := fun i h hij =>
    h (congrArg (· / kBitsPerIntPtrT) hij)
  have hlt : ∀ i, i % kBitsPerIntPtrT < kBitsPerIntPtrT := fun i => Nat.mod_lt _ (by decide)
  simp only [modify, address_sub_heapBegin, offsetToIndex, offsetToMask, offsetBitIndex,
    Nat.mul_div_cancel _ b.alignment_pos]
  cases s
  · -- `Clear`: the word with the bit masked off
    rw [if_neg Bool.false_ne_true, bit_set _ hk]
    by_cases h1 : i / kBitsPerIntPtrT = j / kBitsPerIntPtrT
    · rw [if_pos h1, BitVec.getLsbD_and, BitVec.getLsbD_not, getLsbD_offsetMask,
        decide_eq_true (hlt i)]
      by_cases h2 : i = j
      · subst h2
        rw [if_pos rfl, decide_eq_true rfl, Bool.not_true, Bool.and_false, Bool.and_false]
      · rw [if_neg h2, decide_eq_false fun h => h2 ((hsame i h1).1 h), Bool.not_false,
          Bool.and_true, Bool.and_true, bit, h1]
    · rw [if_neg h1, if_neg (hother i h1)]
  · -- `Set`: the word is stored only when the bit was clear
    rw [if_pos rfl]
    by_cases h0 : b.words.getD (j / kBitsPerIntPtrT) 0 &&&
        BitVec.ofNat kBitsPerIntPtrT 1 <<< (j % kBitsPerIntPtrT) = 0
    · rw [if_pos h0, bit_set _ hk]
      by_cases h1 : i / kBitsPerIntPtrT = j / kBitsPerIntPtrT
      · rw [if_pos h1, BitVec.getLsbD_or, getLsbD_offsetMask]
        by_cases h2 : i = j
        · subst h2
          rw [if_pos rfl, decide_eq_true rfl, Bool.or_true]
        · rw [if_neg h2, decide_eq_false fun h => h2 ((hsame i h1).1 h), Bool.or_false, bit, h1]
      · rw [if_neg h1, if_neg (hother i h1)]
    · rw [if_neg h0]
      by_cases h2 : i = j
      · -- the bit was already set
        subst h2
        rw [if_pos rfl, bit, ← and_shiftLeft_ne_zero _ (hlt i)]
        exact bne_iff_ne.2 h0
      · rw [if_neg h2]

@[simp] theorem heapLimit_modify (s : Bool) (b : SpaceBitmap kAlignment) (a : Nat) :
    (b.modify s a).heapLimit = b.heapLimit := rfl

theorem mul_lt_mul_alignment (b : SpaceBitmap kAlignment) {p q : Nat} :
    p * kAlignment < q * kAlignment ↔ p < q :=
  Nat.mul_lt_mul_right b.alignment_pos

/-- The head loop of `ClearRange` clears the bits from `p` up to the next word boundary, or up to
`q` if that comes first. -/
theorem clearRangeHead_spec (b : SpaceBitmap kAlignment) {p q : Nat} (hpq : p ≤ q)
    (hq : q ≤ b.words.length * kBitsPerIntPtrT) {b' : SpaceBitmap kAlignment} {o : Nat}
    (h : b.clearRangeHead (p * kAlignment) (q * kAlignment) = (b', o)) :
    b'.heapBegin = b.heapBegin ∧ b'.words.length = b.words.length ∧
      ∃ p', o = p' * kAlignment ∧ p ≤ p' ∧ p' ≤ q ∧
        (p' = q ∨ p' % kBitsPerIntPtrT = 0) ∧
        ∀ i, bit b'.words i = (bit b.words i && !decide (p ≤ i ∧ i < p')) := by
  -- one cleared bit per round: induction on the bits left before `q`
  induction hn : q - p generalizing p b with
  | zero =>
    have hpq' : p = q := by omega
    subst hpq'
    rw [clearRangeHead, if_neg fun hc => Nat.lt_irrefl _ hc.1] at h
    obtain ⟨rfl, rfl⟩ := Prod.mk.inj h
    exact ⟨rfl, rfl, p, rfl, le_rfl, le_rfl, Or.inl rfl, fun i => by
      rw [decide_eq_false fun h => by omega, Bool.not_false, Bool.and_true]⟩
  | succ n ih =>
    rw [clearRangeHead] at h
    split_ifs at h with hc
    · have hlt : p < q := (mul_lt_mul_alignment b).1 hc.1
      rw [show p * kAlignment + kAlignment = (p + 1) * kAlignment by rw [Nat.succ_mul]] at h
      obtain ⟨hb, hl, p', ho, h1, h2, h3, hbits⟩ :=
        ih (b := b.clear (b.address p)) hlt (by rw [clear, length_modify]; exact hq) h (by omega)
      refine ⟨hb, by rw [hl, clear, length_modify], p', ho, by omega, h2, h3, fun i => ?_⟩
      rw [hbits i, clear, bit_modify false b (by omega) i]
      by_cases hi : i = p
      · subst hi
        rw [if_pos rfl, Bool.false_and, decide_eq_true ⟨le_rfl, by omega⟩, Bool.not_true,
          Bool.and_false]
      · rw [if_neg hi,
          decide_eq_decide.2 (show p.succ ≤ i ∧ i < p' ↔ p ≤ i ∧ i < p' by omega)]
    · obtain ⟨rfl, rfl⟩ := Prod.mk.inj h
      refine ⟨rfl, rfl, p, rfl, le_rfl, hpq, ?_, fun i => by
        rw [decide_eq_false fun h => by omega, Bool.not_false, Bool.and_true]⟩
      rw [offsetBitIndex, Nat.mul_div_cancel _ b.alignment_pos, mul_lt_mul_alignment b] at hc
      omega


/-- The tail loop of `ClearRange` clears the bits below `q` down to the word boundary before it,
or down to `p` if that comes first. -/
theorem clearRangeTail_spec (b : SpaceBitmap kAlignment) {p q : Nat} (hpq : p ≤ q)
    (hq : q ≤ b.words.length * kBitsPerIntPtrT) {b' : SpaceBitmap kAlignment} {o : Nat}
    (h : b.clearRangeTail (p * kAlignment) (q * kAlignment) = (b', o)) :
    b'.heapBegin = b.heapBegin ∧ b'.words.length = b.words.length ∧
      ∃ q', o = q' * kAlignment ∧ p ≤ q' ∧ q' ≤ q ∧
        (q' = p ∨ q' % kBitsPerIntPtrT = 0) ∧
        ∀ i, bit b'.words i = (bit b.words i && !decide (q' ≤ i ∧ i < q)) := by
  induction hn : q - p generalizing q b with
  | zero =>
    have hpq' : p = q := by omega
    subst hpq'
    rw [clearRangeTail, if_neg fun hc => Nat.lt_irrefl _ hc.1] at h
    obtain ⟨rfl, rfl⟩ := Prod.mk.inj h
    exact ⟨rfl, rfl, p, rfl, le_rfl, le_rfl, Or.inl rfl, fun i => by
      rw [decide_eq_false fun h => by omega, Bool.not_false, Bool.and_true]⟩
  | succ n ih =>
    rw [clearRangeTail] at h
    split_ifs at h with hc
    · have hlt : p < q := (mul_lt_mul_alignment b).1 hc.1
      rw [← Nat.sub_one_mul] at h
      obtain ⟨hb, hl, q', ho, h1, h2, h3, hbits⟩ :=
        ih (b := b.clear (b.address (q - 1))) (by omega)
          (by rw [clear, length_modify]; omega) h (by omega)
      refine ⟨hb, by rw [hl, clear, length_modify], q', ho, h1, by omega, h3, fun i => ?_⟩
      rw [hbits i, clear, bit_modify false b (by omega) i]
      by_cases hi : i = q - 1
      · subst hi
        rw [if_pos rfl, Bool.false_and, decide_eq_true ⟨by omega, by omega⟩, Bool.not_true,
          Bool.and_false]
      · rw [if_neg hi,
          decide_eq_decide.2 (show q' ≤ i ∧ i < q - 1 ↔ q' ≤ i ∧ i < q by omega)]
    · obtain ⟨rfl, rfl⟩ := Prod.mk.inj h
      refine ⟨rfl, rfl, q, rfl, hpq, le_rfl, ?_, fun i => by
        rw [decide_eq_false fun h => by omega, Bool.not_false, Bool.and_true]⟩
      rw [offsetBitIndex, Nat.mul_div_cancel _ b.alignment_pos, mul_lt_mul_alignment b] at hc
      omega


/-- `ClearRange` from bit `p` to bit `q` clears exactly the bits between. -/
theorem bit_clearRange (b : SpaceBitmap kAlignment) {p q : Nat} (hpq : p ≤ q)
    (hq : q ≤ b.words.length * kBitsPerIntPtrT) (i : Nat) :
    bit (b.clearRange (b.address p) (b.address q)).words i =
      (bit b.words i && !decide (p ≤ i ∧ i < q)) := by
  have hW : kBitsPerIntPtrT = 64 := rfl
  unfold clearRange
  simp only [address_sub_heapBegin]
  rcases h1 : b.clearRangeHead (p * kAlignment) (q * kAlignment) with ⟨b1, o1⟩
  obtain ⟨hb1, hl1, p', rfl, hp1, hp2, hp3, hbits1⟩ := clearRangeHead_spec b hpq hq h1
  rw [hb1, address_sub_heapBegin]
  rcases h2 : b1.clearRangeTail (p' * kAlignment) (q * kAlignment) with ⟨b2, o2⟩
  obtain ⟨-, hl2, q', rfl, hq1, hq2, hq3, hbits2⟩ :=
    clearRangeTail_spec b1 hp2 (by rw [hl1]; exact hq) h2
  simp only [offsetToIndex, Nat.mul_div_cancel _ b.alignment_pos]
  rw [bit_storeLoop _ (by rw [hl2, hl1]; rw [hW] at hq ⊢; omega)]
  split_ifs with hmid
  · rw [decide_eq_true (by rw [hW] at hmid hp3 hq3; omega), Bool.not_true, Bool.and_false]
    exact getLsbD_zero _
  · -- outside them, what the two loops cleared is the range
    have hiff : (¬(p ≤ i ∧ i < p') ∧ ¬(q' ≤ i ∧ i < q)) ↔ ¬(p ≤ i ∧ i < q) := by
      rw [hW] at hmid hp3 hq3
      omega
    rw [hbits2, hbits1, Bool.and_assoc, ← decide_not, ← decide_not, ← decide_not,
      ← Bool.decide_and, decide_eq_decide.2 hiff]


theorem heapBegin_clearRangeHead (b : SpaceBitmap kAlignment) (beginOffset endOffset : Nat) :
    (b.clearRangeHead beginOffset endOffset).1.heapBegin = b.heapBegin := by
  fun_induction clearRangeHead b beginOffset endOffset with
  | case1 _ _ _ _ ih => rw [ih]; rfl
  | case2 => rfl

theorem heapBegin_clearRangeTail (b : SpaceBitmap kAlignment) (beginOffset endOffset : Nat) :
    (b.clearRangeTail beginOffset endOffset).1.heapBegin = b.heapBegin := by
  fun_induction clearRangeTail b beginOffset endOffset with
  | case1 _ _ _ _ ih => rw [ih]; rfl
  | case2 => rfl

@[simp] theorem heapBegin_clearRange (b : SpaceBitmap kAlignment) (begin_ end_ : Nat) :
    (b.clearRange begin_ end_).heapBegin = b.heapBegin := by
  unfold clearRange
  simp only [heapBegin_clearRangeTail, heapBegin_clearRangeHead]

theorem address_le_address (b : SpaceBitmap kAlignment) {i j : Nat} :
    b.address i ≤ b.address j ↔ i ≤ j := by
  rw [address, address, Nat.add_le_add_iff_left, Nat.mul_le_mul_right_iff b.alignment_pos]

theorem address_lt_address (b : SpaceBitmap kAlignment) {i j : Nat} :
    b.address i < b.address j ↔ i < j := by
  rw [address, address, Nat.add_lt_add_iff_left, Nat.mul_lt_mul_right b.alignment_pos]

/-- On aligned addresses, `ClearRange(begin, end)` clears the objects of `[begin, end)` and leaves
every other bit. -/
theorem test_clearRange (b : SpaceBitmap kAlignment) {begin_ end_ a : Nat}
    (hb : b.heapBegin ≤ begin_) (hbe : begin_ ≤ end_) (he : end_ ≤ b.heapLimit)
    (hab : begin_ % kAlignment = 0) (hae : end_ % kAlignment = 0) (ha : b.heapBegin ≤ a)
    (haa : a % kAlignment = 0) :
    (b.clearRange begin_ end_).test a = (b.test a && !decide (begin_ ≤ a ∧ a < end_)) := by
  have hk := b.alignment_pos
  have hlim := heapLimit_le b
  rw [← address_div b hb hab, ← address_div b (hb.trans hbe) hae, ← address_div b ha haa,
    test_address, test_eq_bit, heapBegin_clearRange, address_sub_heapBegin,
    Nat.mul_div_cancel _ hk, bit_clearRange b (Nat.div_le_div_right (Nat.sub_le_sub_right hbe _))]
  · simp only [address_le_address, address_lt_address]
  calc (end_ - b.heapBegin) / kAlignment
      ≤ (b.words.length * kBitsPerIntPtrT * kAlignment) / kAlignment :=
        Nat.div_le_div_right (by rw [Nat.mul_assoc, Nat.mul_comm kBitsPerIntPtrT]; omega)
    _ = b.words.length * kBitsPerIntPtrT := Nat.mul_div_cancel _ hk


/-- The garbage of a live and a mark bitmap, `live & ~mark`, as a bitmap over the same heap. -/
def garbage (live mark : SpaceBitmap kAlignment) (h : live.words.length = mark.words.length) :
    SpaceBitmap kAlignment :=
  { live with
    words := List.zipWith (fun l m => l &&& ~~~m) live.words mark.words
    size_eq := by rw [List.length_zipWith, ← h, Nat.min_self, live.size_eq] }

theorem getD_garbage (live mark : SpaceBitmap kAlignment)
    (h : live.words.length = mark.words.length) (i : Nat) : (garbage live mark h).words.getD i 0 =
      live.words.getD i 0 &&& ~~~(mark.words.getD i 0) := by
  rw [garbage]
  rcases Nat.lt_or_ge i live.words.length with hi | hi
  · simp [List.getD_eq_getElem?_getD, hi, h ▸ hi]
  · rw [getD_eq_zero_of_le (by simp [h] at hi ⊢; omega), getD_eq_zero_of_le hi,
      getD_eq_zero_of_le (h ▸ hi)]
    simp

theorem bit_garbage (live mark : SpaceBitmap kAlignment) (h : live.words.length = mark.words.length)
    (j : Nat) : bit (garbage live mark h).words j = (bit live.words j && !bit mark.words j) := by
  unfold bit
  rw [getD_garbage, BitVec.getLsbD_and, BitVec.getLsbD_not]
  by_cases hj : j % kBitsPerIntPtrT < kBitsPerIntPtrT
  · rw [decide_eq_true hj, Bool.true_and]
  · exact absurd (Nat.mod_lt _ (by decide)) hj


/-- What `SweepWalk`'s loop keeps: room in the buffer for a whole word of pointers, and every
batch passed to the callback nonempty and within the buffer. -/
def SweepInv (bufferSize : Nat) (acc : List Nat × List (List Nat)) : Prop :=
  acc.1.length < bufferSize - kBitsPerIntPtrT ∧
    ∀ c ∈ acc.2, c ≠ [] ∧ c.length < bufferSize

/-- The pointers of the garbage of word `i`, as `SweepWalk` collects them. -/
def garbageWord (live mark : SpaceBitmap kAlignment) (i : Nat) : List Nat :=
  visitWord kAlignment (indexToOffset kAlignment i + live.heapBegin)
    (live.words.getD i 0 &&& ~~~(mark.words.getD i 0))

/-- One word of the sweep keeps the invariant and adds the word's garbage to what the callback
has been passed and what the buffer holds. -/
theorem sweepWord_spec {bufferSize : Nat} (hbuf : kBitsPerIntPtrT < bufferSize)
    (live mark : SpaceBitmap kAlignment) {acc : List Nat × List (List Nat)}
    (hinv : SweepInv bufferSize acc) (i : Nat) :
    SweepInv bufferSize (sweepWord bufferSize live mark acc i) ∧
      (sweepWord bufferSize live mark acc i).2.flatten ++ (sweepWord bufferSize live mark acc i).1 =
        acc.2.flatten ++ acc.1 ++ garbageWord live mark i := by
  obtain ⟨cur, calls⟩ := acc
  obtain ⟨hcur, hcalls⟩ := hinv
  have hword : (garbageWord live mark i).length ≤ kBitsPerIntPtrT := by
    rw [garbageWord, visitWord, List.length_map]
    exact length_setBits_le _
  unfold sweepWord
  dsimp only at hcur hcalls ⊢
  split_ifs with hg hflush
  · -- the buffer is passed to the callback
    refine ⟨⟨by simp only [List.length_nil]; omega, fun c hc => ?_⟩, ?_⟩
    · rcases List.mem_append.1 hc with hc | hc
      · exact hcalls c hc
      · rw [List.mem_singleton.1 hc]
        refine ⟨List.ne_nil_of_length_pos (by omega), ?_⟩
        rw [List.length_append]
        exact Nat.lt_of_lt_of_le (Nat.add_lt_add_of_lt_of_le hcur hword) (by omega)
    · rw [List.flatten_append, List.flatten_singleton, List.append_nil, garbageWord,
        List.append_assoc]
  · exact ⟨⟨Nat.lt_of_not_le hflush, hcalls⟩, by rw [List.append_assoc, garbageWord]⟩
  · -- a word without garbage adds nothing
    refine ⟨⟨hcur, hcalls⟩, ?_⟩
    rw [garbageWord, Decidable.not_not.1 hg, visitWord, setBits_zero, List.map_nil,
      List.append_nil]

/-- The sweep's loop over the words `l`. -/
theorem foldl_sweepWord {bufferSize : Nat} (hbuf : kBitsPerIntPtrT < bufferSize)
    (live mark : SpaceBitmap kAlignment) (l : List Nat) {acc : List Nat × List (List Nat)}
    (hinv : SweepInv bufferSize acc) :
    SweepInv bufferSize (l.foldl (sweepWord bufferSize live mark) acc) ∧
      (l.foldl (sweepWord bufferSize live mark) acc).2.flatten ++
          (l.foldl (sweepWord bufferSize live mark) acc).1 =
        acc.2.flatten ++ acc.1 ++ l.flatMap (garbageWord live mark) := by
  induction l generalizing acc with
  | nil => exact ⟨hinv, by rw [List.foldl_nil, List.flatMap_nil, List.append_nil]⟩
  | cons i l ih =>
    obtain ⟨hinv', hstep⟩ := sweepWord_spec hbuf live mark hinv i
    obtain ⟨hfold, hflat⟩ := ih hinv'
    refine ⟨hfold, ?_⟩
    rw [List.foldl_cons, hflat, hstep, List.flatMap_cons, List.append_assoc]

/-- The garbage pointers of the words from `i` on are the addresses of the garbage bits. -/
theorem flatMap_garbageWord (live mark : SpaceBitmap kAlignment)
    (h : live.words.length = mark.words.length) (i n : Nat) :
    (List.range' i n).flatMap (garbageWord live mark) =
      ((List.range' (i * kBitsPerIntPtrT) (n * kBitsPerIntPtrT)).filter
        (fun j => bit live.words j && !bit mark.words j)).map live.address := by
  induction n generalizing i with
  | zero => simp
  | succ n ih =>
    have hword := visitWord_window (garbage live mark h) i (Nat.zero_le _) (Nat.le_refl _)
      (y := (garbage live mark h).words.getD i 0) fun j hj => by simp [hj]
    rw [getD_garbage] at hword
    rw [List.range'_succ, List.flatMap_cons, ih, garbageWord]
    change visitWord kAlignment
      (indexToOffset kAlignment i + (garbage live mark h).heapBegin) _ ++ _ = _
    rw [hword, Nat.add_zero, Nat.sub_zero, List.filter_congr fun j _ => bit_garbage live mark h j]
    change List.map live.address _ ++ _ = _
    rw [← List.map_append, ← List.filter_append, Nat.succ_mul, List.range'_append_1,
      Nat.succ_mul, Nat.add_comm (n * _)]


/-- `SweepWalk` over `[sweep_begin, sweep_end)` of the heap passes the callback, batch after batch,
the addresses of the garbage bits (live and not marked) of the swept words in increasing order,
each batch nonempty and within the buffer. -/
theorem sweepWalk_eq (live mark : SpaceBitmap kAlignment) (isRunningOnMemoryTool : Bool)
    {sweepBegin sweepEnd : Nat} (hbegin : live.heapBegin = mark.heapBegin)
    (hlen : live.words.length = mark.words.length) (hb : live.heapBegin ≤ sweepBegin)
    (hbe : sweepBegin < sweepEnd) (he : sweepEnd ≤ live.heapLimit) :
    let start := offsetToIndex kAlignment (sweepBegin - live.heapBegin)
    let end_ := offsetToIndex kAlignment (sweepEnd - live.heapBegin - 1)
    ∃ calls, live.sweepWalk mark sweepBegin sweepEnd isRunningOnMemoryTool = some calls ∧
      calls.flatten = ((List.range' (start * kBitsPerIntPtrT)
        ((end_ + 1 - start) * kBitsPerIntPtrT)).filter
          (fun j => bit live.words j && !bit mark.words j)).map live.address ∧
      ∀ c ∈ calls, c ≠ [] ∧ c.length < sweepBufferSize live mark
        (List.range' start (end_ + 1 - start)) isRunningOnMemoryTool := by
  intro start end_
  have hlim := heapLimit_le live
  have hcov : 0 < kAlignment * kBitsPerIntPtrT := Nat.mul_pos live.alignment_pos (by decide)
  have hend : end_ < live.words.length := by
    change (sweepEnd - live.heapBegin - 1) / kAlignment / kBitsPerIntPtrT < _
    rw [Nat.div_div_eq_div_mul]
    exact Nat.div_lt_of_lt_mul (by rw [Nat.mul_comm]; omega)
  have hbuf : kBitsPerIntPtrT < sweepBufferSize live mark (List.range' start (end_ + 1 - start))
      isRunningOnMemoryTool := by
    unfold sweepBufferSize
    have : kBitsPerIntPtrT < kIntPtrSize * kBitsPerIntPtrT := by decide
    omega
  unfold sweepWalk
  dsimp only
  rw [show offsetToIndex kAlignment (sweepBegin - live.heapBegin) = start from rfl,
    show offsetToIndex kAlignment (sweepEnd - live.heapBegin - 1) = end_ from rfl,
    if_neg (by omega), if_neg (by omega), if_neg (Nat.not_le.2 hend)]
  obtain ⟨hinv, hflat⟩ := foldl_sweepWord hbuf live mark (List.range' start (end_ + 1 - start))
    (show SweepInv _ ([], []) from
      ⟨by simp only [List.length_nil]; omega, fun c hc => absurd hc List.not_mem_nil⟩)
  rcases hf : (List.range' start (end_ + 1 - start)).foldl
    (sweepWord (sweepBufferSize live mark (List.range' start (end_ + 1 - start))
      isRunningOnMemoryTool) live mark) ([], []) with ⟨cur, calls⟩
  rw [hf] at hinv hflat
  obtain ⟨hcur, hcalls⟩ := hinv
  dsimp only at hcur hcalls hflat
  rw [List.flatten_nil, List.append_nil, List.nil_append, flatMap_garbageWord live mark hlen]
    at hflat
  refine ⟨if cur ≠ [] then calls ++ [cur] else calls, rfl, ?_, fun c hc => ?_⟩
  · -- the buffer's rest is the last batch
    split_ifs with hc
    · rw [List.flatten_append, List.flatten_singleton, hflat]
    · rw [← hflat, Decidable.not_not.1 hc, List.append_nil]
  · split_ifs at hc with hne
    · rcases List.mem_append.1 hc with hc | hc
      · exact hcalls c hc
      · rw [List.mem_singleton.1 hc]
        exact ⟨hne, by omega⟩
    · exact hcalls c hc

/-- The visits and the clearing of a bitmap on aligned addresses of its heap: `VisitMarkedRange`
visits what the reference loop visits except from the end of a full last word, where it reads
past the bitmap, `Walk` visits every marked address in increasing order, `ClearRange` clears
exactly `[begin, end)`, and `SweepWalk` hands the garbage addresses to its callback in increasing
order, in nonempty batches that fit its buffer. -/
theorem space_bitmap_visits_spec :
    (∀ (b : SpaceBitmap kAlignment) (visitBegin visitEnd : Nat), b.heapBegin ≤ visitBegin →
      visitBegin ≤ visitEnd → visitEnd ≤ b.heapLimit → visitBegin % kAlignment = 0 →
      visitEnd % kAlignment = 0 →
      b.visitMarkedRange visitBegin visitEnd =
        if visitBegin = b.heapBegin + b.words.length * (kAlignment * kBitsPerIntPtrT) then none
        else some (b.visitMarkedRangeReference visitBegin visitEnd)) ∧
    (∀ b : SpaceBitmap kAlignment,
      (b.heapLimit - b.heapBegin) % (kAlignment * kBitsPerIntPtrT) = 0 →
      ∀ visitEnd, b.visitMarkedRange b.heapLimit visitEnd = none) ∧
    (∀ b : SpaceBitmap kAlignment, b.walk = some (b.visitMarkedRangeReference b.heapBegin
      (b.heapBegin + b.words.length * (kAlignment * kBitsPerIntPtrT)))) ∧
    (∀ (b : SpaceBitmap kAlignment) (begin_ end_ a : Nat), b.heapBegin ≤ begin_ →
      begin_ ≤ end_ → end_ ≤ b.heapLimit → begin_ % kAlignment = 0 → end_ % kAlignment = 0 →
      b.heapBegin ≤ a → a % kAlignment = 0 →
      (b.clearRange begin_ end_).test a = (b.test a && !decide (begin_ ≤ a ∧ a < end_))) ∧
    ∀ (live mark : SpaceBitmap kAlignment) (isRunningOnMemoryTool : Bool)
      (sweepBegin sweepEnd : Nat), live.heapBegin = mark.heapBegin →
      live.words.length = mark.words.length → live.heapBegin ≤ sweepBegin →
      sweepBegin < sweepEnd → sweepEnd ≤ live.heapLimit →
      let start := offsetToIndex kAlignment (sweepBegin - live.heapBegin)
      let end_ := offsetToIndex kAlignment (sweepEnd - live.heapBegin - 1)
      ∃ calls, live.sweepWalk mark sweepBegin sweepEnd isRunningOnMemoryTool = some calls ∧
        calls.flatten = ((List.range' (start * kBitsPerIntPtrT)
          ((end_ + 1 - start) * kBitsPerIntPtrT)).filter
            (fun j => bit live.words j && !bit mark.words j)).map live.address ∧
        ∀ c ∈ calls, c ≠ [] ∧ c.length < sweepBufferSize live mark
          (List.range' start (end_ + 1 - start)) isRunningOnMemoryTool :=
  ⟨fun b _ _ hb hbe he hab hae => visitMarkedRange_eq_reference b hb hbe he hab hae,
    visitMarkedRange_heapLimit_eq_none, walk_eq_reference,
    fun b _ _ _ hb hbe he hab hae ha haa => test_clearRange b hb hbe he hab hae ha haa,
    fun live mark tool _ _ hbegin hlen hb hbe he =>
      sweepWalk_eq live mark tool hbegin hlen hb hbe he⟩

end SpaceBitmap

end Art
