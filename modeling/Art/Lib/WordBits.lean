import Art.Lib.ByteMemory

/-!
# A list of words as a set of bit indices

A list of `w`-bit words holds the set of indices `i` whose bit `i % w` of word `i / w` is set, and
reads as zero past its last word (`bit`).  A set operation done word by word is then read off a
description of every word: `bit_mul_add` finds a bit in its word, `getD_eq_of_bit_eq` goes back
from equal bits to equal words, and `getD_eq_zero_of_bit_le` says that the words above the highest
set bit are zero.

`storeLoop` and `updateLoop` are the loops `for (idx = lo; idx < lo + n; idx++)` that rewrite one
word each, the second only when the word changes, with a flag that says whether one did;
`getD_storeLoop`, `updateLoop_fst` and `updateLoop_snd_iff` say what they leave.  `foldl_cpop` and
`countP_bit_add` count the set bits below a bound: whole words by their population count, then
the low bits of the next one.

`setBits` is the loop `do { shift = CTZ(x); ...; x ^= 1 << shift; } while (x != 0)` that visits
the set bits of one word, lowest first (`setBits_eq_filter`); a word masked to a window of bit
positions has the set bits of that window (`setBits_of_window`, with `getLsbD_shiftLeft_sub_one`
for the masks `(1 << s) - 1`), and `filter_bit_range'_word` reads such a window of the words'
bits off the one word that holds it.
-/

namespace WordBits

variable {w : Nat}

/-- Bit `i` of the words: bit `i % w` of word `i / w`, and `false` past the last word. -/
def bit (ws : List (BitVec w)) (i : Nat) : Bool := (ws.getD (i / w) 0).getLsbD (i % w)

section Words

theorem getD_eq_zero_of_le {ws : List (BitVec w)} {k : Nat} (h : ws.length ≤ k) :
    ws.getD k 0 = 0 := by
  rw [List.getD_eq_getElem?_getD, List.getElem?_eq_none h, Option.getD_none]

/-- Padding with zero words leaves every word as it reads. -/
theorem getD_append_replicate (ws : List (BitVec w)) (n k : Nat) :
    (ws ++ List.replicate n 0).getD k 0 = ws.getD k 0 := by
  rcases Nat.lt_or_ge k ws.length with h | h
  · rw [List.getD_eq_getElem?_getD, List.getElem?_append_left h, ← List.getD_eq_getElem?_getD]
  · rw [List.getD_eq_getElem?_getD, List.getElem?_append_right h, getD_eq_zero_of_le h,
      List.getElem?_replicate]
    split <;> rfl

theorem getD_set {ws : List (BitVec w)} {i : Nat} (x : BitVec w) (hi : i < ws.length) (k : Nat) :
    (ws.set i x).getD k 0 = if k = i then x else ws.getD k 0 := by
  rw [List.getD_eq_getElem?_getD, List.getElem?_set, List.getD_eq_getElem?_getD]
  by_cases hk : k = i
  · subst hk
    simp [hi]
  · simp [Ne.symm hk, hk]

theorem getD_replicate_zero (n k : Nat) : (List.replicate n (0 : BitVec w)).getD k 0 = 0 := by
  rw [List.getD_eq_getElem?_getD, List.getElem?_replicate]
  split <;> rfl

theorem set_getD_self (ws : List (BitVec w)) (i : Nat) : ws.set i (ws.getD i 0) = ws := by
  rcases Nat.lt_or_ge i ws.length with h | h
  · rw [List.getD_eq_getElem _ _ h, List.set_getElem_self h]
  · exact List.set_eq_of_length_le h

end Words

section Bits

theorem getLsbD_zero (j : Nat) : (0 : BitVec w).getLsbD j = false := BitVec.getLsbD_zero

theorem bit_mul_add (ws : List (BitVec w)) (k : Nat) {j : Nat} (hj : j < w) :
    bit ws (k * w + j) = (ws.getD k 0).getLsbD j := by
  have hw : 0 < w := Nat.lt_of_le_of_lt (Nat.zero_le j) hj
  unfold bit
  rw [Nat.mul_comm, Nat.mul_add_div hw, Nat.div_eq_of_lt hj, Nat.add_zero, Nat.mul_add_mod,
    Nat.mod_eq_of_lt hj]

theorem bit_eq_false_of_le {ws : List (BitVec w)} {i : Nat} (h : ws.length * w ≤ i) :
    bit ws i = false := by
  unfold bit
  rcases Nat.eq_zero_or_pos w with hw | hw
  · subst hw
    exact BitVec.getLsbD_of_ge _ _ (Nat.zero_le _)
  · rw [getD_eq_zero_of_le ((Nat.le_div_iff_mul_le hw).2 h), getLsbD_zero]

/-- A set bit is inside the words. -/
theorem lt_of_bit_eq_true {ws : List (BitVec w)} {i : Nat} (h : bit ws i = true) :
    i < ws.length * w := by
  by_contra hle
  rw [bit_eq_false_of_le (Nat.le_of_not_lt hle)] at h
  exact Bool.false_ne_true h

/-- Words with the same bits are the same words. -/
theorem getD_eq_of_bit_eq {ws ws' : List (BitVec w)} (h : ∀ i, bit ws i = bit ws' i) (k : Nat) :
    ws.getD k 0 = ws'.getD k 0 := by
  apply BitVec.eq_of_getLsbD_eq
  intro j hj
  rw [← bit_mul_add ws k hj, ← bit_mul_add ws' k hj, h]

theorem bit_eq_iff {ws ws' : List (BitVec w)} :
    (∀ i, bit ws i = bit ws' i) ↔ ∀ k, ws.getD k 0 = ws'.getD k 0 := by
  refine ⟨getD_eq_of_bit_eq, fun h i => ?_⟩
  unfold bit
  rw [h]

theorem getD_eq_zero_of_bit_eq_false {ws : List (BitVec w)} (h : ∀ i, bit ws i = false)
    (k : Nat) : ws.getD k 0 = 0 :=
  getD_eq_of_bit_eq (fun i => (h i).trans (bit_eq_false_of_le (by
    rw [List.length_nil, Nat.zero_mul]; exact Nat.zero_le i)).symm : ∀ i, bit ws i = bit [] i) k

/-- The words above the one that holds the highest set bit are zero. -/
theorem getD_eq_zero_of_bit_le {ws : List (BitVec w)} {h k : Nat}
    (hle : ∀ i, bit ws i = true → i ≤ h) (hk : h / w < k) : ws.getD k 0 = 0 := by
  apply BitVec.eq_of_getLsbD_eq
  intro j hj
  rw [getLsbD_zero, ← bit_mul_add ws k hj]
  by_contra hb
  have hi := hle _ (Bool.not_eq_false _ ▸ hb)
  have : k * w ≤ h := Nat.le_trans (Nat.le_add_right _ _) hi
  have := (Nat.le_div_iff_mul_le (Nat.lt_of_le_of_lt (Nat.zero_le j) hj)).2 this
  omega

/-- A bit of a word below `n` when the words from `n` on are zero. -/
theorem lt_of_bit {ws : List (BitVec w)} {n i : Nat} (hup : ∀ k, n ≤ k → ws.getD k 0 = 0)
    (hb : bit ws i = true) : i < n * w := by
  unfold bit at hb
  rcases Nat.eq_zero_or_pos w with hw | hw
  · subst hw
    rw [BitVec.getLsbD_of_ge _ _ (Nat.zero_le _)] at hb
    exact absurd hb Bool.false_ne_true
  · by_contra hle
    rw [hup _ ((Nat.le_div_iff_mul_le hw).2 (Nat.le_of_not_lt hle)), getLsbD_zero] at hb
    exact absurd hb Bool.false_ne_true

/-- One word's bits are among another's when or-ing it in changes nothing. -/
theorem or_eq_right_iff {x y : BitVec w} :
    x ||| y = y ↔ ∀ j, x.getLsbD j = true → y.getLsbD j = true := by
  constructor
  · intro h j hx
    rw [← h, BitVec.getLsbD_or, hx, Bool.true_or]
  · intro h
    apply BitVec.eq_of_getLsbD_eq
    intro j _
    rw [BitVec.getLsbD_or]
    cases hx : x.getLsbD j
    · rw [Bool.false_or]
    · rw [h j hx, Bool.true_or]

theorem bit_subset_iff {ws us : List (BitVec w)} :
    (∀ i, bit ws i = true → bit us i = true) ↔ ∀ k, ws.getD k 0 ||| us.getD k 0 = us.getD k 0 := by
  constructor
  · intro h k
    refine or_eq_right_iff.2 fun j hj => ?_
    have hw : j < w := by
      by_contra hle
      rw [BitVec.getLsbD_of_ge _ _ (Nat.le_of_not_lt hle)] at hj
      exact Bool.false_ne_true hj
    rw [← bit_mul_add us k hw]
    exact h _ (by rw [bit_mul_add ws k hw]; exact hj)
  · intro h i hi
    unfold bit at hi ⊢
    exact or_eq_right_iff.1 (h _) _ hi

/-- Storing a word rewrites its bits and no other. -/
theorem bit_set {ws : List (BitVec w)} {k : Nat} (x : BitVec w) (hk : k < ws.length)
    (i : Nat) : bit (ws.set k x) i = if i / w = k then x.getLsbD (i % w) else bit ws i := by
  unfold bit
  rw [getD_set x hk]
  split_ifs <;> rfl

end Bits

section Loops

variable (f : Nat → BitVec w → BitVec w)

/-- `for (idx = lo; idx < lo + n; idx++) { ws[idx] = f(idx, ws[idx]); }` -/
def storeLoop (lo : Nat) : Nat → List (BitVec w) → List (BitVec w)
  | 0, ws => ws
  | n + 1, ws => storeLoop (lo + 1) n (ws.set lo (f lo (ws.getD lo 0)))

/-- The same loop when it writes a word only if the word changes:
`existing = ws[idx]; update = f(idx, existing); if (existing != update) { changed = true;
ws[idx] = update; }` -/
def updateLoop (lo : Nat) : Nat → List (BitVec w) × Bool → List (BitVec w) × Bool
  | 0, acc => acc
  | n + 1, (ws, changed) =>
    let existing := ws.getD lo 0
    let update := f lo existing
    if existing ≠ update then updateLoop (lo + 1) n (ws.set lo update, true)
    else updateLoop (lo + 1) n (ws, changed)

@[simp] theorem length_storeLoop (lo n : Nat) (ws : List (BitVec w)) :
    (storeLoop f lo n ws).length = ws.length := by
  induction n generalizing lo ws with
  | zero => rfl
  | succ n ih => rw [storeLoop, ih, List.length_set]

/-- The loop rewrites the words from `lo` to `lo + n`, each from its old value, and no other. -/
theorem getD_storeLoop {lo n : Nat} {ws : List (BitVec w)} (h : lo + n ≤ ws.length) (k : Nat) :
    (storeLoop f lo n ws).getD k 0 =
      if lo ≤ k ∧ k < lo + n then f k (ws.getD k 0) else ws.getD k 0 := by
  induction n generalizing lo ws with
  | zero =>
    rw [storeLoop, if_neg (by omega)]
  | succ n ih =>
    have hlo : lo < ws.length := by omega
    rw [storeLoop, ih (by rw [List.length_set]; omega), getD_set _ hlo]
    by_cases hk : k = lo
    · subst hk
      simp
    · simp only [hk, if_false]
      split_ifs <;> first | rfl | omega

/-- The loop's bits: those of the rewritten words, and the old ones elsewhere. -/
theorem bit_storeLoop {lo n : Nat} {ws : List (BitVec w)} (h : lo + n ≤ ws.length) (i : Nat) :
    bit (storeLoop f lo n ws) i =
      if lo ≤ i / w ∧ i / w < lo + n then (f (i / w) (ws.getD (i / w) 0)).getLsbD (i % w)
      else bit ws i := by
  unfold bit
  rw [getD_storeLoop f h]
  split_ifs <;> rfl

/-- Zeroing the words from `lo` to the end: `for (; idx < storage_size_; idx++) ws[idx] = 0`. -/
theorem getD_storeLoop_zero (lo : Nat) (ws : List (BitVec w)) (k : Nat) :
    (storeLoop (fun _ _ => 0) lo (ws.length - lo) ws).getD k 0 = if lo ≤ k then 0 else ws.getD k 0 := by
  by_cases hlo : lo ≤ ws.length
  · rw [getD_storeLoop _ (by omega)]
    by_cases hk : lo ≤ k
    · rw [if_pos hk]
      split_ifs with h
      · rfl
      · exact getD_eq_zero_of_le (by omega)
    · rw [if_neg (by omega), if_neg hk]
  · -- nothing to zero: every word from `lo` on is past the end
    rw [show ws.length - lo = 0 by omega, storeLoop]
    split_ifs with hk
    · exact getD_eq_zero_of_le (by omega)
    · rfl

theorem updateLoop_fst (lo n : Nat) (acc : List (BitVec w) × Bool) :
    (updateLoop f lo n acc).1 = storeLoop f lo n acc.1 := by
  induction n generalizing lo acc with
  | zero => rfl
  | succ n ih =>
    obtain ⟨ws, changed⟩ := acc
    rw [updateLoop, storeLoop]
    split_ifs with hne
    · rw [ih]
    · -- a word that stays as it is is the same as one written back
      rw [ih, ← Decidable.not_not.1 hne, set_getD_self]

/-- The flag is set when it was, or when one of the words changes. -/
theorem updateLoop_snd_iff {lo n : Nat} {acc : List (BitVec w) × Bool}
    (h : lo + n ≤ acc.1.length) :
    (updateLoop f lo n acc).2 = true ↔
      acc.2 = true ∨ ∃ k, lo ≤ k ∧ k < lo + n ∧ f k (acc.1.getD k 0) ≠ acc.1.getD k 0 := by
  induction n generalizing lo acc with
  | zero =>
    rw [updateLoop]
    exact ⟨Or.inl, fun h => h.elim id fun ⟨k, h1, h2, _⟩ => absurd h2 (by omega)⟩
  | succ n ih =>
    obtain ⟨ws, changed⟩ := acc
    simp only at h
    have hlo : lo < ws.length := by omega
    rw [updateLoop]
    split_ifs with hne
    · rw [ih (by simp only [List.length_set]; omega)]
      exact ⟨fun _ => Or.inr ⟨lo, Nat.le_refl _, by omega, Ne.symm hne⟩, fun _ => Or.inl rfl⟩
    · rw [ih (by simp only; omega)]
      have heq : f lo (ws.getD lo 0) = ws.getD lo 0 := (Decidable.not_not.1 hne).symm
      constructor
      · rintro (hc | ⟨k, h1, h2, hk⟩)
        · exact Or.inl hc
        · exact Or.inr ⟨k, by omega, by omega, hk⟩
      · rintro (hc | ⟨k, h1, h2, hk⟩)
        · exact Or.inl hc
        · refine Or.inr ⟨k, ?_, by omega, hk⟩
          -- the word at `lo` did not change
          rcases Nat.eq_or_lt_of_le h1 with rfl | hlt
          · exact absurd heq hk
          · omega

end Loops

section Blocks

/-- A loop of `set`s keeps the number of words. -/
theorem length_foldl_set (l : List Nat) (idx : Nat → Nat) (val : List (BitVec w) → Nat → BitVec w)
    (ws : List (BitVec w)) :
    (l.foldl (fun ws i => ws.set (idx i) (val ws i)) ws).length = ws.length := by
  induction l generalizing ws with
  | nil => rfl
  | cons i l ih => rw [List.foldl_cons, ih, List.length_set]

/-- Or-ing a block of `n` words from `source` into the block from `dest`, one word at a time: when
the two blocks are the same or apart, every word of the destination block gets the old word of the
source block. -/
theorem getD_foldl_or {dest source n : Nat} {ws : List (BitVec w)} (hlen : dest + n ≤ ws.length)
    (hsep : source = dest ∨ source + n ≤ dest ∨ dest + n ≤ source) (k : Nat) :
    ((List.range n).foldl (fun ws i =>
        ws.set (dest + i) (ws.getD (dest + i) 0 ||| ws.getD (source + i) 0)) ws).getD k 0 =
      if dest ≤ k ∧ k < dest + n then ws.getD k 0 ||| ws.getD (k - dest + source) 0
      else ws.getD k 0 := by
  induction n generalizing k with
  | zero => rw [List.range_zero, List.foldl_nil, if_neg (by omega)]
  | succ n ih =>
    have ih' := ih (by omega) (by omega)
    rw [List.range_succ, List.foldl_append, List.foldl_cons, List.foldl_nil,
      getD_set _ (by rw [length_foldl_set]; omega)]
    by_cases hk : k = dest + n
    · -- the last word: neither it nor the source word were written before
      subst hk
      rw [if_pos rfl, ih', ih', if_neg (by omega), if_neg (by omega), if_pos (by omega),
        Nat.add_sub_cancel_left, Nat.add_comm n source]
    · rw [if_neg hk, ih']
      split_ifs <;> first | rfl | omega

end Blocks

section Count

/-- Adding up the population counts of the first `q` words counts their bits. -/
theorem foldl_cpop (ws : List (BitVec w)) (q : Nat) :
    (List.range q).foldl (fun count k => count + (ws.getD k 0).cpop.toNat) 0 =
      (List.range (q * w)).countP (bit ws) := by
  induction q with
  | zero => simp
  | succ q ih =>
    rw [List.range_succ, List.foldl_append, ih, List.foldl_cons, List.foldl_nil, Nat.succ_mul,
      List.range_add, List.countP_append, List.countP_map, Art.BitVec.toNat_cpop_eq_countP]
    congr 1
    exact List.countP_congr fun j hj => by
      rw [Function.comp_apply, bit_mul_add ws q (List.mem_range.1 hj)]

/-- The bits below `q * w + r` are those of the first `q` words and the low `r` bits of the next. -/
theorem countP_bit_add (ws : List (BitVec w)) (q : Nat) {r : Nat} (hr : r ≤ w) :
    (List.range (q * w + r)).countP (bit ws) =
      (List.range (q * w)).countP (bit ws) + (List.range r).countP (ws.getD q 0).getLsbD := by
  rw [List.range_add, List.countP_append, List.countP_map]
  congr 1
  exact List.countP_congr fun j hj => by
    rw [Function.comp_apply, bit_mul_add ws q (Nat.lt_of_lt_of_le (List.mem_range.1 hj) hr)]

end Count

section SetBits

theorem ctz_toNat_lt {x : BitVec w} (hx : x ≠ 0) : x.ctz.toNat < w := by
  have := BitVec.ctz_lt_iff_ne_zero.2 hx
  rw [BitVec.lt_def] at this
  simpa using this

/-- `do { shift = CTZ(x); visit(shift); x ^= 1 << shift; } while (x != 0)`, run for at most `n`
rounds: the shifts it visits. -/
def setBitsLoop : Nat → BitVec w → List Nat
  | 0, _ => []
  | n + 1, x => if x = 0 then [] else x.ctz.toNat :: setBitsLoop n (x ^^^ 1#w <<< x.ctz.toNat)

/-- The loop over the set bits of a word.  Each round clears one bit, so `w` rounds always see the
word to zero (`setBits_eq_filter`). -/
def setBits (x : BitVec w) : List Nat := setBitsLoop w x

/-- Clearing the lowest set bit leaves every other bit. -/
theorem getLsbD_xor_ctz {x : BitVec w} (hx : x ≠ 0) (j : Nat) :
    (x ^^^ 1#w <<< x.ctz.toNat).getLsbD j = (x.getLsbD j && j != x.ctz.toNat) := by
  rw [← BitVec.twoPow_eq, BitVec.getLsbD_xor, BitVec.getLsbD_twoPow]
  by_cases hj : j = x.ctz.toNat
  · subst hj
    simp [BitVec.getLsbD_true_ctz_of_ne_zero hx, ctz_toNat_lt hx]
  · simp [hj, Ne.symm hj]

/-- The set bits of `x` are its lowest one followed by those of `x` with that bit cleared. -/
theorem filter_getLsbD_eq_cons {x : BitVec w} (hx : x ≠ 0) :
    (List.range w).filter x.getLsbD =
      x.ctz.toNat :: (List.range w).filter (x ^^^ 1#w <<< x.ctz.toNat).getLsbD := by
  have hc := ctz_toNat_lt hx
  have hsplit : List.range w = List.range' 0 x.ctz.toNat ++
      x.ctz.toNat :: List.range' (x.ctz.toNat + 1) (w - x.ctz.toNat - 1) := by
    calc List.range w = List.range' 0 (x.ctz.toNat + (w - x.ctz.toNat - 1 + 1)) := by
          rw [List.range_eq_range']; congr 1; omega
      _ = _ := by rw [← List.range'_append_1, List.range'_succ, Nat.zero_add]
  -- below the lowest set bit both words are zero, above it they agree
  have hlow : ∀ j ∈ List.range' 0 x.ctz.toNat, x.getLsbD j = false := fun j hj =>
    BitVec.getLsbD_false_of_lt_ctz (by simpa using (List.mem_range'_1.1 hj).2)
  have hlow' : ((List.range' 0 x.ctz.toNat).filter (x ^^^ 1#w <<< x.ctz.toNat).getLsbD) = [] :=
    List.filter_eq_nil_iff.2 fun j hj => by simp [getLsbD_xor_ctz hx, hlow j hj]
  have hhigh : (List.range' (x.ctz.toNat + 1) (w - x.ctz.toNat - 1)).filter x.getLsbD =
      (List.range' (x.ctz.toNat + 1) (w - x.ctz.toNat - 1)).filter
        (x ^^^ 1#w <<< x.ctz.toNat).getLsbD := by
    refine List.filter_congr fun j hj => ?_
    have : j ≠ x.ctz.toNat := by have := (List.mem_range'_1.1 hj).1; omega
    simp [getLsbD_xor_ctz hx, this]
  rw [hsplit, List.filter_append, List.filter_append, List.filter_cons_of_pos
      (BitVec.getLsbD_true_ctz_of_ne_zero hx),
    List.filter_cons_of_neg (by simp [getLsbD_xor_ctz hx]), List.filter_eq_nil_iff.2 fun j hj => by
      simp [hlow j hj], hlow', hhigh]
  rfl

/-- Given as many rounds as the word has set bits, the loop visits them all, lowest first. -/
theorem setBitsLoop_eq_filter {n : Nat} {x : BitVec w}
    (h : ((List.range w).filter x.getLsbD).length ≤ n) :
    setBitsLoop n x = (List.range w).filter x.getLsbD := by
  induction n generalizing x with
  | zero => rw [setBitsLoop, List.eq_nil_of_length_eq_zero (Nat.le_zero.1 h)]
  | succ n ih =>
    rw [setBitsLoop]
    split_ifs with hx
    · subst hx
      simp
    · rw [filter_getLsbD_eq_cons hx] at h ⊢
      rw [ih (Nat.le_of_succ_le_succ h)]

theorem setBits_eq_filter (x : BitVec w) : setBits x = (List.range w).filter x.getLsbD :=
  setBitsLoop_eq_filter ((List.length_filter_le _ _).trans (List.length_range).le)

example : setBits (0b1011#8) = [0, 1, 3] := by decide

theorem length_setBits_le (x : BitVec w) : (setBits x).length ≤ w := by
  rw [setBits_eq_filter]
  exact (List.length_filter_le _ _).trans List.length_range.le

theorem setBits_zero : setBits (0 : BitVec w) = [] := by
  rw [setBits_eq_filter]
  exact List.filter_eq_nil_iff.2 fun j _ => by simp

theorem range'_sub_append {a b c : Nat} (hab : a ≤ b) (hbc : b ≤ c) :
    List.range' a (b - a) ++ List.range' b (c - b) = List.range' a (c - a) := by
  obtain ⟨m, rfl⟩ := Nat.exists_eq_add_of_le hab
  obtain ⟨n, rfl⟩ := Nat.exists_eq_add_of_le hbc
  rw [Nat.add_sub_cancel_left, Nat.add_sub_cancel_left, Nat.add_assoc, Nat.add_sub_cancel_left,
    List.range'_append_1]

/-- The positions in `[lo, hi)` where `p` holds, picked out of `[0, n)` by a guard. -/
theorem filter_range_window (p : Nat → Bool) {lo hi n : Nat} (hlo : lo ≤ hi) (hhi : hi ≤ n) :
    (List.range n).filter (fun j => p j && (decide (lo ≤ j) && decide (j < hi))) =
      (List.range' lo (hi - lo)).filter p := by
  have hsplit : List.range n = List.range' 0 lo ++ List.range' lo (hi - lo) ++
      List.range' hi (n - hi) := by
    calc List.range n = List.range' 0 (lo + ((hi - lo) + (n - hi))) := by
          rw [List.range_eq_range']; congr 1; omega
      _ = List.range' 0 lo ++
            (List.range' (0 + lo) (hi - lo) ++ List.range' (0 + lo + (hi - lo)) (n - hi)) := by
          rw [List.range'_append_1, List.range'_append_1]
      _ = _ := by rw [← List.append_assoc, Nat.zero_add, show lo + (hi - lo) = hi by omega]
  -- outside the window the guard fails, inside it holds
  have hbelow : (List.range' 0 lo).filter (fun j => p j && (decide (lo ≤ j) && decide (j < hi))) =
      [] := List.filter_eq_nil_iff.2 fun j hj => by
    have := (List.mem_range'_1.1 hj).2
    simp only [Bool.and_eq_true, decide_eq_true_eq, not_and]
    omega
  have habove : (List.range' hi (n - hi)).filter
      (fun j => p j && (decide (lo ≤ j) && decide (j < hi))) = [] :=
    List.filter_eq_nil_iff.2 fun j hj => by
      have := (List.mem_range'_1.1 hj).1
      simp only [Bool.and_eq_true, decide_eq_true_eq, not_and]
      omega
  rw [hsplit, List.filter_append, List.filter_append, hbelow, habove, List.nil_append,
    List.append_nil]
  refine List.filter_congr fun j hj => ?_
  have := List.mem_range'_1.1 hj
  simp only [decide_eq_true (show lo ≤ j by omega), decide_eq_true (show j < hi by omega),
    Bool.and_true]

/-- A word masked to the window `[lo, hi)` of `x` has the set bits of `x` in that window. -/
theorem setBits_of_window {x y : BitVec w} {lo hi : Nat} (hlo : lo ≤ hi) (hhi : hi ≤ w)
    (hy : ∀ j < w, y.getLsbD j = (x.getLsbD j && (decide (lo ≤ j) && decide (j < hi)))) :
    setBits y = (List.range' lo (hi - lo)).filter x.getLsbD := by
  rw [setBits_eq_filter, ← filter_range_window _ hlo hhi]
  exact List.filter_congr fun j hj => hy j (List.mem_range.1 hj)

/-- `(1 << s) - 1` has the bits below `s`. -/
theorem getLsbD_shiftLeft_sub_one {s : Nat} (hs : s < w) (j : Nat) :
    ((1#w <<< s) - 1).getLsbD j = decide (j < s) := by
  have hpow : 2 ^ s < 2 ^ w := Nat.pow_lt_pow_right (by decide) hs
  have htoNat : ((1#w <<< s) - 1).toNat = 2 ^ s - 1 := by
    rw [BitVec.toNat_sub, ← BitVec.twoPow_eq, BitVec.toNat_twoPow_of_lt hs]
    have hone : (1 : BitVec w).toNat = 1 := by
      have : 0 < w := Nat.lt_of_le_of_lt (Nat.zero_le s) hs
      simp [Nat.mod_eq_of_lt (Nat.one_lt_two_pow (Nat.ne_of_gt this))]
    rw [hone]
    have : 1 ≤ 2 ^ s := Nat.one_le_two_pow
    rw [show 2 ^ w - 1 + 2 ^ s = 2 ^ w + (2 ^ s - 1) by omega, Nat.add_mod_left,
      Nat.mod_eq_of_lt (by omega)]
  rw [← BitVec.testBit_toNat, htoNat, Nat.testBit_two_pow_sub_one]

/-- `x & ~((1 << s) - 1)` keeps the bits of `x` from `s` on. -/
theorem getLsbD_and_not_lowMask (x : BitVec w) {s j : Nat} (hs : s < w)
    (hj : j < w) :
    (x &&& ~~~((1#w <<< s) - 1)).getLsbD j =
      (x.getLsbD j && (decide (s ≤ j) && decide (j < w))) := by
  rw [BitVec.getLsbD_and, BitVec.getLsbD_not, getLsbD_shiftLeft_sub_one hs, decide_eq_true hj]
  by_cases hsj : s ≤ j
  · rw [decide_eq_false (Nat.not_lt.2 hsj), decide_eq_true hsj]
    rfl
  · rw [decide_eq_true (Nat.lt_of_not_le hsj), decide_eq_false hsj]
    rfl

/-- `x & ((1 << e) - 1)` keeps the bits of `x` below `e`. -/
theorem getLsbD_and_lowMask (x : BitVec w) {e j : Nat} (he : e < w) :
    (x &&& ((1#w <<< e) - 1)).getLsbD j = (x.getLsbD j && decide (j < e)) := by
  rw [BitVec.getLsbD_and, getLsbD_shiftLeft_sub_one he]

/-- The set bits of words in positions `[k * w + s, k * w + s + n)` are those of word `k`. -/
theorem filter_bit_range'_word (ws : List (BitVec w)) (k : Nat) {s n : Nat} (h : s + n ≤ w) :
    (List.range' (k * w + s) n).filter (bit ws) =
      ((List.range' s n).filter (ws.getD k 0).getLsbD).map (k * w + ·) := by
  rw [← List.map_add_range', List.filter_map]
  congr 1
  refine List.filter_congr fun j hj => ?_
  have := List.mem_range'_1.1 hj
  simp only [Function.comp_apply, bit_mul_add ws k (show j < w by omega)]

end SetBits

end WordBits
