import Art.Mirror.String
import Art.Proofs.Utf

/-!
# String compression: which allocations are canonical, and what `Equals` and `CompareTo` mean

A string is canonical when it is compressed exactly if all its chars are ASCII.  The char-array,
UTF-16, empty, substring, concatenation and replacement paths produce canonical strings from
canonical ones, and on canonical strings `Equals` is equality of the chars
(`equals_iff_of_canonical`).  `CompareTo` is Java's `compareTo` on the chars whatever the
compression (`compareTo_eq`).  `string_operations_semantics` gathers them.

`AllocFromByteArray` with no bytes and a non-zero high byte produces an uncompressed empty
string, which `Equals` tells apart from `""`; and `Equals(const char*)` stops at a decoded `0`,
so it rejects the Modified UTF-8 of `U+0000` (`string_compression_not_canonical`).
-/

namespace Art

open Word32 MirrorString

theorem isASCII_iff {c : Nat} (hc : c < 2 ^ 32) : isASCII c = true ↔ 1 ≤ c ∧ c ≤ 0x7f := by
  unfold isASCII u32
  rcases Nat.eq_zero_or_pos c with rfl | hpos
  · decide
  · rw [show c + 2 ^ 32 - 1 = (c - 1) + 2 ^ 32 by omega, Nat.add_mod_right,
      Nat.mod_eq_of_lt (by omega)]
    simp only [decide_eq_true_eq]
    omega

theorem count_eq (s : MirrorString) :
    s.count = 2 * s.getLength + (if s.isCompressed then 0 else 1) := by
  unfold getLength isCompressed isCompressedCount getLengthFromCount
  rw [Nat.shiftRight_eq_div_pow]
  split <;> simp_all <;> omega

theorem alloc_isCompressed {length : Nat} {compressible : Bool} {value : List Nat}
    {h : value.length = length} : (alloc length compressible value h).isCompressed = compressible :=
  isCompressedCount_getFlaggedCount length compressible

theorem alloc_chars {length : Nat} {compressible : Bool} {value : List Nat}
    {h : value.length = length} : (alloc length compressible value h).chars = value := rfl

theorem map_mod_of_allASCII {xs : List Nat} (h : allASCII xs = true) (hx : ∀ c ∈ xs, c < 2 ^ 16) :
    xs.map (· % 256) = xs := by
  refine (List.map_congr_left fun c hc => ?_).trans (List.map_id xs)
  have := (isASCII_iff (by have := hx c hc; omega)).mp (List.all_eq_true.mp h c hc)
  show c % 256 = c
  omega

theorem all_congr_of_mem {xs : List Nat} {p q : Nat → Bool} (h : ∀ c ∈ xs, p c = q c) :
    xs.all p = xs.all q := by
  rw [Bool.eq_iff_iff, List.all_eq_true, List.all_eq_true]
  exact forall₂_congr fun c hc => by rw [h c hc]

theorem allASCII_of_all {xs : List Nat} (h : ∀ c ∈ xs, isASCII c = true) : allASCII xs = true :=
  List.all_eq_true.mpr h

theorem isASCII_of_allASCII {xs : List Nat} (h : allASCII xs = true) {c : Nat} (hc : c ∈ xs) :
    isASCII c = true :=
  List.all_eq_true.mp h c hc

/-- `AllocFromUtf16` and `AllocFromCharArray` hold the given chars, canonically. -/
theorem allocFromUtf16_canonical {utf16 : List Nat} (hx : ∀ c ∈ utf16, c < 2 ^ 16) :
    (allocFromUtf16 utf16).Canonical ∧ (allocFromUtf16 utf16).chars = utf16 := by
  have hchars : (allocFromUtf16 utf16).chars = utf16 := by
    unfold allocFromUtf16
    rw [alloc_chars]
    split
    · exact map_mod_of_allASCII ‹_› hx
    · rfl
  refine ⟨?_, hchars⟩
  unfold Canonical
  rw [show (allocFromUtf16 utf16).value = utf16 from hchars]
  exact isCompressedCount_getFlaggedCount _ _

theorem allocFromCharArray_canonical {src : List Nat} (hx : ∀ c ∈ src, c < 2 ^ 16) :
    (allocFromCharArray src).Canonical ∧ (allocFromCharArray src).chars = src := by
  have hchars : (allocFromCharArray src).chars = src := by
    unfold allocFromCharArray
    rw [alloc_chars]
    split
    · exact map_mod_of_allASCII ‹_› hx
    · rfl
  refine ⟨?_, hchars⟩
  unfold Canonical
  rw [show (allocFromCharArray src).value = src from hchars]
  exact isCompressedCount_getFlaggedCount _ _

theorem allocEmptyString_canonical : allocEmptyString.Canonical ∧ allocEmptyString.chars = [] :=
  ⟨rfl, rfl⟩

/-- A substring of a canonical string is canonical: a compressed source has only ASCII chars, so
skipping the scan loses nothing. -/
theorem allocFromString_canonical {string : MirrorString} (hs : string.Canonical)
    (hx : ∀ c ∈ string.chars, c < 2 ^ 16) (offset stringLength : Nat) :
    (allocFromString string offset stringLength).Canonical ∧
      (allocFromString string offset stringLength).chars =
        (string.chars.drop offset).take stringLength := by
  have hsub : ∀ c ∈ (string.value.drop offset).take stringLength, c ∈ string.value :=
    fun c hc => List.mem_of_mem_drop (List.mem_of_mem_take hc)
  have hchars : (allocFromString string offset stringLength).chars =
      (string.chars.drop offset).take stringLength := by
    unfold allocFromString
    rw [alloc_chars]
    split
    · rfl
    · split
      · exact map_mod_of_allASCII ‹_› fun c hc => hx c (hsub c hc)
      · rfl
  refine ⟨?_, hchars⟩
  unfold Canonical
  rw [show (allocFromString string offset stringLength).value = _ from hchars]
  unfold allocFromString
  rw [alloc_isCompressed]
  split
  · rename_i hc
    rw [hs] at hc
    exact (allASCII_of_all fun c hc' => isASCII_of_allASCII hc (hsub c hc')).symm
  · rfl

/-- `DoConcat` of canonical strings is canonical: an uncompressed canonical half has a non-ASCII
char, which the result keeps. -/
theorem doConcat_canonical {a b : MirrorString} (ha : a.Canonical) (hb : b.Canonical) :
    (doConcat a b).Canonical ∧ (doConcat a b).chars = a.chars ++ b.chars := by
  refine ⟨?_, rfl⟩
  show isCompressedCount (getFlaggedCount _ (a.isCompressed && b.isCompressed)) =
    allASCII (a.value ++ b.value)
  rw [isCompressedCount_getFlaggedCount, ha, hb, allASCII, allASCII, allASCII, List.all_append]

/-- `DoReplace` on a canonical string that holds `old_c` is canonical. -/
theorem doReplace_canonical {src : MirrorString} (hs : src.Canonical) {oldC newC : Nat}
    (hold : oldC ∈ src.chars) :
    (doReplace src oldC newC).Canonical ∧
      (doReplace src oldC newC).chars = src.chars.map fun c => if oldC ≠ c then c else newC := by
  refine ⟨?_, rfl⟩
  show isCompressedCount (getFlaggedCount _ _) = allASCII (src.value.map _)
  rw [isCompressedCount_getFlaggedCount]
  -- the result is ASCII when `new_c` is and every char other than `old_c` is
  have hres : allASCII (src.value.map fun c => if oldC ≠ c then c else newC) =
      (isASCII newC && src.value.all fun c => isASCII c || c == oldC) := by
    simp only [allASCII, List.all_map]
    by_cases hn : isASCII newC = true
    · rw [hn, Bool.true_and]
      refine all_congr_of_mem fun c _ => ?_
      by_cases hco : oldC = c
      · rw [Function.comp_apply, if_neg (not_not.mpr hco), ← hco, beq_self_eq_true, Bool.or_true,
          hn]
      · rw [Function.comp_apply, if_pos hco, beq_false_of_ne (Ne.symm hco), Bool.or_false]
    · rw [Bool.not_eq_true] at hn
      rw [hn, Bool.false_and, List.all_eq_false]
      refine ⟨oldC, hold, ?_⟩
      rw [Function.comp_apply, if_neg (not_not.mpr rfl), hn]
      exact Bool.false_ne_true
  rw [hres]
  by_cases hc : src.isCompressed = true
  · have hall : allASCII src.value = true := hs ▸ hc
    have hrest : (src.value.all fun c => isASCII c || c == oldC) = true :=
      List.all_eq_true.mpr fun c hc' => by rw [isASCII_of_allASCII hall hc', Bool.true_or]
    rw [hc, Bool.true_or, Bool.and_true, hrest, Bool.and_true]
  · rw [Bool.not_eq_true] at hc
    have hall : allASCII src.value = false := hs ▸ hc
    rw [hc, Bool.false_or]
    by_cases hol : isASCII oldC = true
    · -- every char other than `old_c` ASCII would make the whole string ASCII
      have hrest : (src.value.all fun c => isASCII c || c == oldC) = false := by
        rw [← hall]
        refine all_congr_of_mem fun c _ => ?_
        by_cases hco : c = oldC
        · rw [hco, beq_self_eq_true, Bool.or_true, hol]
        · rw [beq_false_of_ne hco, Bool.or_false]
      rw [hol, Bool.not_true, Bool.false_and, Bool.and_false, hrest, Bool.and_false]
    · rw [Bool.not_eq_true] at hol
      rw [hol, Bool.not_false, Bool.true_and]
      rfl

/-- `AllocFromByteArray` is canonical, except on an empty slice with a non-zero high byte. -/
theorem allocFromByteArray_canonical {src : List Nat} (hb : ∀ b ∈ src, b < 256) {highByte : Nat}
    (hne : src ≠ [] ∨ highByte % 256 = 0) :
    (allocFromByteArray src highByte).Canonical ∧
      (allocFromByteArray src highByte).chars = src.map fun b => highByte % 256 * 256 + b := by
  have hhigh : highByte % 256 < 256 := Nat.mod_lt _ (by decide)
  have hchars : (allocFromByteArray src highByte).chars =
      src.map fun b => highByte % 256 * 256 + b := by
    unfold allocFromByteArray
    rw [alloc_chars]
    split
    · rename_i h
      rw [Bool.and_eq_true, decide_eq_true_eq] at h
      refine List.map_congr_left fun b hb' => ?_
      have := hb b hb'
      omega
    · refine List.map_congr_left fun b hb' => ?_
      have := hb b hb'
      rw [Nat.shiftLeft_eq, Nat.mod_eq_of_lt this, Nat.mod_eq_of_lt (by omega)]
  refine ⟨?_, hchars⟩
  unfold Canonical
  rw [show (allocFromByteArray src highByte).value = _ from hchars]
  show isCompressedCount (getFlaggedCount _ _) = _
  rw [isCompressedCount_getFlaggedCount]
  by_cases h0 : highByte % 256 = 0
  · -- a zero high byte widens each byte to itself
    have hid : (src.map fun b => 0 * 256 + b) = src :=
      (List.map_congr_left fun b _ => by rw [Nat.zero_mul, Nat.zero_add, id]).trans (List.map_id src)
    rw [h0, decide_eq_true rfl, Bool.and_true, hid]
  · -- a non-zero high byte puts every char at `0x100` or above
    obtain ⟨b, hbmem⟩ := List.exists_mem_of_ne_nil src (hne.resolve_right h0)
    rw [decide_eq_false h0, Bool.and_false, eq_comm, allASCII, List.all_eq_false]
    refine ⟨highByte % 256 * 256 + b, List.mem_map_of_mem hbmem, ?_⟩
    have := hb b hbmem
    rw [isASCII_iff (by omega)]
    omega

/-- On canonical strings `Equals` is equality of the chars: the counts agree once the chars do,
since canonicity fixes the flag. -/
theorem equals_iff_of_canonical {a b : MirrorString} (ha : a.Canonical) (hb : b.Canonical) :
    a.equals b = true ↔ a.chars = b.chars := by
  unfold equals chars
  constructor
  · intro h
    split at h
    · exact absurd h Bool.false_ne_true
    · exact beq_iff_eq.mp h
  · intro h
    have hlen : a.getLength = b.getLength := by
      rw [getLength, getLength, ← a.value_length, ← b.value_length, h]
    have hcount : a.count = b.count := by
      rw [count_eq, count_eq, hlen, ha, hb, h]
    rw [if_neg (not_not.mpr hcount), h, beq_self_eq_true]

/-- An empty slice with high byte `1` gives an uncompressed `""`: `Equals` tells it from `""` while
`CompareTo` finds them equal, and concatenating `"a"` to it gives an uncompressed `"a"` that
`Equals` tells from `"a"`.  And `U+0000`, which is not ASCII here, makes the string of that one
char uncompressed; its Modified UTF-8 `C0 80` decodes to it, but `Equals(const char*)` rejects it at
the decoded `0`. -/
theorem string_compression_not_canonical :
    (allocFromByteArray [] 1).isCompressed = false ∧ (allocFromByteArray [] 1).chars = [] ∧
    (allocFromByteArray [] 1).equals allocEmptyString = false ∧
    (allocFromByteArray [] 1).compareTo allocEmptyString = 0 ∧
    (doConcat (allocFromByteArray [] 1) (allocFromUtf16 [0x61])).chars = [0x61] ∧
    (doConcat (allocFromByteArray [] 1) (allocFromUtf16 [0x61])).equals
      (allocFromUtf16 [0x61]) = false ∧
    (allocFromUtf16 [0]).chars = [0] ∧
    convertUtf16ToModifiedUtf8 (countUtf8Bytes [0]) [0] = [0xc0, 0x80] ∧
    convertModifiedUtf8ToUtf16 [0xc0, 0x80] = [0] ∧
    (allocFromUtf16 [0]).equalsModifiedUtf8 [0xc0, 0x80] = false := by
  decide

/-! ## `CompareTo` against Java's `String.compareTo` -/

/-- The difference of the chars at the first index where two sequences differ, if they differ
before one of them ends. -/
def firstDiff : List Nat → List Nat → Option Int
  | a :: s, b :: t => if a = b then firstDiff s t else some ((a : Int) - b)
  | _, _ => none

/-- Java's `String.compareTo` on UTF-16 sequences. -/
def utf16CompareTo (s t : List Nat) : Int :=
  (firstDiff s t).getD ((s.length : Int) - t.length)

theorem firstDiff_nil_right (s : List Nat) : firstDiff s [] = none := by
  cases s <;> rfl

/-- Appending after a common-length prefix only matters when the prefixes agree. -/
theorem firstDiff_append {s t : List Nat} (h : s.length = t.length) (s' t' : List Nat) :
    firstDiff (s ++ s') (t ++ t') = (firstDiff s t).or (firstDiff s' t') := by
  induction s generalizing t with
  | nil =>
    rw [List.length_nil, eq_comm, List.length_eq_zero_iff] at h
    subst h
    rfl
  | cons a s ih =>
    obtain ⟨b, t, rfl⟩ := List.exists_cons_of_length_eq_add_one h.symm
    simp only [List.cons_append, firstDiff]
    split
    · exact ih (Nat.succ_injective h)
    · rfl

theorem firstDiff_take {s t : List Nat} {n : Nat} (h : s.length ≤ n ∨ t.length ≤ n) :
    firstDiff (s.take n) (t.take n) = firstDiff s t := by
  induction s generalizing t n with
  | nil => rw [List.take_nil]; rfl
  | cons a s ih =>
    cases t with
    | nil => rw [List.take_nil, firstDiff_nil_right, firstDiff_nil_right]
    | cons b t =>
      cases n with
      | zero => simp at h
      | succ n =>
        simp only [List.take_succ_cons, firstDiff]
        rw [ih (by simpa using h)]

theorem charDiff_succ (lhs rhs : List Nat) (n : Nat) :
    charDiff lhs rhs (n + 1) = (charDiff lhs rhs n).or
      (if lhs.getD n 0 = rhs.getD n 0 then none
        else some ((lhs.getD n 0 : Int) - rhs.getD n 0)) := by
  rw [charDiff]
  cases charDiff lhs rhs n <;> rfl

/-- The loops of `CompareTo` look at the first `n` chars, which both strings have. -/
theorem charDiff_eq_firstDiff {lhs rhs : List Nat} {n : Nat} (hl : n ≤ lhs.length)
    (hr : n ≤ rhs.length) : charDiff lhs rhs n = firstDiff (lhs.take n) (rhs.take n) := by
  induction n with
  | zero => rfl
  | succ n ih =>
    have hl' : n < lhs.length := hl
    have hr' : n < rhs.length := hr
    rw [charDiff_succ, ih (Nat.le_of_lt hl') (Nat.le_of_lt hr'), List.take_add_one,
      List.take_add_one, firstDiff_append (by simp; omega), List.getElem?_eq_getElem hl',
      List.getElem?_eq_getElem hr', List.getD_eq_getElem?_getD, List.getD_eq_getElem?_getD,
      List.getElem?_eq_getElem hl', List.getElem?_eq_getElem hr']
    rfl

theorem charDiff_swap (lhs rhs : List Nat) (n : Nat) :
    charDiff rhs lhs n = (charDiff lhs rhs n).map Neg.neg := by
  induction n with
  | zero => rfl
  | succ n ih =>
    rw [charDiff_succ, charDiff_succ, ih]
    cases charDiff lhs rhs n with
    | some d => rfl
    | none =>
      by_cases h : lhs.getD n 0 = rhs.getD n 0
      · rw [if_pos h.symm, if_pos h]
        rfl
      · rw [if_neg (Ne.symm h), if_neg h]
        rw [Option.map_none, Option.none_or, Option.none_or, Option.map_some, Int.neg_sub]

/-- Whatever the compression, `CompareTo` is Java's `compareTo` on the chars. -/
theorem compareTo_eq (lhs rhs : MirrorString) :
    lhs.compareTo rhs = utf16CompareTo lhs.chars rhs.chars := by
  have hl : lhs.getLength = lhs.value.length := lhs.value_length.symm
  have hr : rhs.getLength = rhs.value.length := rhs.value_length.symm
  have hmin : (if (lhs.getLength : Int) - rhs.getLength < 0 then lhs.getLength
      else rhs.getLength) = min lhs.value.length rhs.value.length := by
    rw [hl, hr]
    split <;> omega
  -- every branch computes the first difference over the common length
  have hdiff : charDiff lhs.value rhs.value (min lhs.value.length rhs.value.length) =
      firstDiff lhs.value rhs.value := by
    rw [charDiff_eq_firstDiff (Nat.min_le_left _ _) (Nat.min_le_right _ _),
      firstDiff_take (by omega)]
  unfold compareTo utf16CompareTo chars
  simp only [hmin]
  rw [hl, hr]
  split
  · rw [hdiff]
  · split
    · -- the mixed loop runs compressed against uncompressed and flips the sign back
      by_cases hlc : lhs.isCompressed = true
      · simp only [hlc, if_true, hdiff, Option.map_id']
      · simp only [hlc, Bool.false_eq_true, if_false]
        rw [charDiff_swap, hdiff, Option.map_map]
        have hneg : ((fun d : Int => -d) ∘ Neg.neg) = id := funext fun d => Int.neg_neg d
        rw [hneg, Option.map_id, id]
    · rw [hdiff]

/-- What the allocation paths, `Equals` and `CompareTo` mean for the chars: the canonical paths
keep canonicity, `Equals` on canonical strings is equality of the chars, and `CompareTo` is
Java's `compareTo` on them. -/
theorem string_operations_semantics :
    (∀ utf16 : List Nat, (∀ c ∈ utf16, c < 2 ^ 16) →
      (allocFromUtf16 utf16).Canonical ∧ (allocFromUtf16 utf16).chars = utf16) ∧
    (∀ src : List Nat, (∀ c ∈ src, c < 2 ^ 16) →
      (allocFromCharArray src).Canonical ∧ (allocFromCharArray src).chars = src) ∧
    (allocEmptyString.Canonical ∧ allocEmptyString.chars = []) ∧
    (∀ (string : MirrorString) (offset stringLength : Nat), string.Canonical →
      (∀ c ∈ string.chars, c < 2 ^ 16) →
      (allocFromString string offset stringLength).Canonical ∧
        (allocFromString string offset stringLength).chars =
          (string.chars.drop offset).take stringLength) ∧
    (∀ a b : MirrorString, a.Canonical → b.Canonical →
      (doConcat a b).Canonical ∧ (doConcat a b).chars = a.chars ++ b.chars) ∧
    (∀ (src : MirrorString) (oldC newC : Nat), src.Canonical → oldC ∈ src.chars →
      (doReplace src oldC newC).Canonical ∧
        (doReplace src oldC newC).chars = src.chars.map fun c => if oldC ≠ c then c else newC) ∧
    (∀ (src : List Nat) (highByte : Nat), (∀ b ∈ src, b < 256) →
      (src ≠ [] ∨ highByte % 256 = 0) →
      (allocFromByteArray src highByte).Canonical ∧
        (allocFromByteArray src highByte).chars = src.map fun b => highByte % 256 * 256 + b) ∧
    (∀ a b : MirrorString, a.Canonical → b.Canonical → (a.equals b = true ↔ a.chars = b.chars)) ∧
    ∀ lhs rhs : MirrorString, lhs.compareTo rhs = utf16CompareTo lhs.chars rhs.chars :=
  ⟨fun _ hx => allocFromUtf16_canonical hx, fun _ hx => allocFromCharArray_canonical hx,
    allocEmptyString_canonical, fun _ offset len hs hx => allocFromString_canonical hs hx offset len,
    fun _ _ ha hb => doConcat_canonical ha hb, fun _ _ _ hs hold => doReplace_canonical hs hold,
    fun _ _ hb hne => allocFromByteArray_canonical hb hne,
    fun _ _ ha hb => equals_iff_of_canonical ha hb, compareTo_eq⟩

end Art
