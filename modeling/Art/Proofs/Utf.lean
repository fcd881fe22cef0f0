import Mathlib
import Art.Dex.Utf

/-!
# The two Modified UTF-8 comparators against UTF-16 order

`CompareModifiedUtf8ToUtf16AsCodePointValues` compares in UTF-16 code-unit order whatever the
bytes (`compareModifiedUtf8ToUtf16_sign`): it takes the leading and the trailing char of each
sequence in turn, which is how `ConvertModifiedUtf8ToUtf16` lays them out.

`CompareModifiedUtf8ToModifiedUtf8AsUtf16CodePointValues` compares whole sequences, a four-byte
sequence being one token `leading | trailing << 16`.  Where neither string holds a four-byte
sequence this is code-unit order too (`compareModifiedUtf8_sign_of_no_pairs`); against a
four-byte sequence whose leading char is equal it compares the trailing char with whatever the
other string has after the single char, `0`, and so gets the order wrong
(`compare_modified_utf8_split_surrogate`).
-/

namespace Art

/-- The sequences of a NUL-terminated string, as `GetUtf16FromUtf8` returns them. -/
def utf8Sequences : Nat → List Nat → List Nat
  | 0, _ => []
  | fuel + 1, s =>
    if s.headD 0 = 0 then [] else (getUtf16FromUtf8 s).1 :: utf8Sequences fuel (getUtf16FromUtf8 s).2

theorem getUtf16FromUtf8_length_lt {s : List Nat} (h : s ≠ []) :
    (getUtf16FromUtf8 s).2.length < s.length := by
  have hpos : 0 < s.length := List.length_pos_of_ne_nil h
  unfold getUtf16FromUtf8
  dsimp only
  split_ifs <;> simp only [List.length_drop] <;> omega

theorem ne_nil_of_headD_ne_zero {s : List Nat} (h : s.headD 0 ≠ 0) : s ≠ [] := by
  rintro rfl
  exact h rfl

/-- `CompareModifiedUtf8ToUtf16AsCodePointValues` has the sign of the UTF-16 order of what the
bytes decode to, for any bytes and any chars, once the fuel covers the bytes. -/
theorem compareModifiedUtf8ToUtf16Loop_sign :
    ∀ (fuel : Nat) (s t : List Nat), s.length < fuel →
      compare (compareModifiedUtf8ToUtf16Loop fuel s t) 0 = compare (decodeModifiedUtf8Loop fuel s) t
  | 0, s, t, h => by omega
  | fuel + 1, s, t, h => by
    simp only [compareModifiedUtf8ToUtf16Loop, decodeModifiedUtf8Loop]
    by_cases hs : s.headD 0 = 0
    · -- the terminator: equal when the chars run out too, else shorter
      rw [if_pos hs, if_pos hs]
      cases t <;> rfl
    rw [if_neg hs, if_neg hs]
    have hlt := getUtf16FromUtf8_length_lt (ne_nil_of_headD_ne_zero hs)
    have ih := fun t => compareModifiedUtf8ToUtf16Loop_sign fuel (getUtf16FromUtf8 s).2 t (by omega)
    rcases t with _ | ⟨rhs, t⟩
    · rfl
    dsimp only
    rw [List.compare_cons_cons]
    by_cases hl : getLeadingUtf16Char (getUtf16FromUtf8 s).1 = rhs
    · rw [if_neg (not_not.mpr hl), hl, Nat.compare_eq_eq.mpr rfl, Ordering.eq_then]
      by_cases htr : getTrailingUtf16Char (getUtf16FromUtf8 s).1 = 0
      · rw [if_neg (not_not.mpr htr), if_neg (not_not.mpr htr), List.nil_append]
        exact ih t
      · rw [if_pos htr, if_pos htr]
        rcases t with _ | ⟨rhs2, t⟩
        · rfl
        dsimp only
        rw [List.singleton_append, List.compare_cons_cons]
        by_cases h2 : getTrailingUtf16Char (getUtf16FromUtf8 s).1 = rhs2
        · rw [if_neg (not_not.mpr h2), h2, Nat.compare_eq_eq.mpr rfl, Ordering.eq_then]
          exact ih t
        · rw [if_pos h2]
          rcases Nat.lt_or_gt_of_ne h2 with h2 | h2
          · rw [if_neg (Nat.not_lt.mpr (Nat.le_of_lt h2)), Nat.compare_eq_lt.mpr h2]
            rfl
          · rw [if_pos h2, Nat.compare_eq_gt.mpr h2]
            rfl
    · rw [if_pos hl]
      rcases Nat.lt_or_gt_of_ne hl with hl | hl
      · rw [if_neg (Nat.not_lt.mpr (Nat.le_of_lt hl)), Nat.compare_eq_lt.mpr hl]
        rfl
      · rw [if_pos hl, Nat.compare_eq_gt.mpr hl]
        rfl

theorem compareModifiedUtf8ToUtf16_sign (utf8 utf16 : List Nat) :
    compare (compareModifiedUtf8ToUtf16AsCodePointValues utf8 utf16) 0 =
      compare (convertModifiedUtf8ToUtf16 utf8) utf16 :=
  compareModifiedUtf8ToUtf16Loop_sign _ utf8 utf16 (Nat.lt_succ_self _)

theorem headD_drop_lt {s : List Nat} (hs : ∀ b ∈ s, b < 256) (k : Nat) :
    (s.drop k).headD 0 < 256 := by
  rcases h : s.drop k with _ | ⟨b, t⟩
  · decide
  · exact hs b (List.mem_of_mem_drop (h ▸ List.mem_cons_self))

theorem and_shiftLeft_le (x m k : Nat) : (x &&& m) <<< k ≤ m * 2 ^ k := by
  rw [Nat.shiftLeft_eq]
  exact Nat.mul_le_mul_right _ Nat.and_le_right

/-- From bytes, a sequence decodes to at most 32 bits: a char, or a pair with its trailing char in
the high half. -/
theorem getUtf16FromUtf8_lt {s : List Nat} (hs : ∀ b ∈ s, b < 256) :
    (getUtf16FromUtf8 s).1 < 2 ^ 32 := by
  have h0 := headD_drop_lt hs 0
  rw [List.drop_zero] at h0
  unfold getUtf16FromUtf8
  dsimp only
  split_ifs
  · omega
  · -- two bytes: eleven bits
    have := and_shiftLeft_le (s.headD 0) 0x1f 6
    exact Nat.or_lt_two_pow (by omega) (Nat.lt_of_le_of_lt Nat.and_le_right (by decide))
  · -- three bytes: sixteen bits
    have h1 := and_shiftLeft_le (s.headD 0) 0x0f 12
    have h2 := and_shiftLeft_le ((s.drop 1).headD 0) 0x3f 6
    exact Nat.or_lt_two_pow (Nat.or_lt_two_pow (by omega) (by omega))
      (Nat.lt_of_le_of_lt Nat.and_le_right (by decide))
  · -- four bytes: the trailing char of the pair is the high half
    refine Nat.or_lt_two_pow (Nat.lt_of_le_of_lt Nat.and_le_right (by decide)) ?_
    rw [Nat.shiftLeft_eq]
    have := @Nat.and_le_right (((s.headD 0 &&& 0x0f) <<< 18 ||| ((s.drop 1).headD 0 &&& 0x3f) <<< 12 |||
      ((s.drop 2).headD 0 &&& 0x3f) <<< 6 ||| ((s.drop 3).headD 0 &&& 0x3f))) 0x3ff
    omega

/-- A sequence with no trailing char is its own leading char. -/
theorem getLeadingUtf16Char_of_trailing_eq_zero {c : Nat} (hc : c < 2 ^ 32)
    (h : getTrailingUtf16Char c = 0) : getLeadingUtf16Char c = c := by
  unfold getTrailingUtf16Char at h
  unfold getLeadingUtf16Char
  rw [Nat.shiftRight_eq_div_pow] at h
  have : c / 2 ^ 16 < 2 ^ 16 := Nat.div_lt_of_lt_mul (by omega)
  rw [Nat.mod_eq_of_lt this] at h
  exact Nat.mod_eq_of_lt (by omega)

theorem getUtf16FromUtf8_snd (s : List Nat) : ∃ k, (getUtf16FromUtf8 s).2 = s.drop k := by
  unfold getUtf16FromUtf8
  dsimp only
  split_ifs
  · exact ⟨1, rfl⟩
  · exact ⟨2, rfl⟩
  · exact ⟨3, rfl⟩
  · exact ⟨4, rfl⟩

theorem getUtf16FromUtf8_snd_bytes {s : List Nat} (hs : ∀ b ∈ s, b < 256) :
    ∀ b ∈ (getUtf16FromUtf8 s).2, b < 256 := by
  obtain ⟨k, hk⟩ := getUtf16FromUtf8_snd s
  rw [hk]
  exact fun b hb => hs b (List.mem_of_mem_drop hb)

theorem decodeModifiedUtf8Loop_ne_nil {fuel : Nat} {s : List Nat} (h : s.headD 0 ≠ 0) :
    decodeModifiedUtf8Loop (fuel + 1) s =
      getLeadingUtf16Char (getUtf16FromUtf8 s).1 ::
        ((if getTrailingUtf16Char (getUtf16FromUtf8 s).1 ≠ 0 then
          [getTrailingUtf16Char (getUtf16FromUtf8 s).1] else []) ++
          decodeModifiedUtf8Loop fuel (getUtf16FromUtf8 s).2) := by
  simp only [decodeModifiedUtf8Loop, if_neg h]

theorem decodeModifiedUtf8Loop_fuel :
    ∀ (fuel fuel' : Nat) (s : List Nat), s.length < fuel → s.length < fuel' →
      decodeModifiedUtf8Loop fuel s = decodeModifiedUtf8Loop fuel' s
  | 0, _, _, h, _ => by omega
  | _ + 1, 0, _, _, h => by omega
  | fuel + 1, fuel' + 1, s, h, h' => by
    by_cases hs : s.headD 0 = 0
    · simp only [decodeModifiedUtf8Loop, if_pos hs]
    · have hlt := getUtf16FromUtf8_length_lt (ne_nil_of_headD_ne_zero hs)
      rw [decodeModifiedUtf8Loop_ne_nil hs, decodeModifiedUtf8Loop_ne_nil hs,
        decodeModifiedUtf8Loop_fuel fuel fuel' _ (by omega) (by omega)]

theorem utf8Sequences_fuel :
    ∀ (fuel fuel' : Nat) (s : List Nat), s.length < fuel → s.length < fuel' →
      utf8Sequences fuel s = utf8Sequences fuel' s
  | 0, _, _, h, _ => by omega
  | _ + 1, 0, _, _, h => by omega
  | fuel + 1, fuel' + 1, s, h, h' => by
    simp only [utf8Sequences]
    split_ifs with hs
    · rfl
    · have hlt := getUtf16FromUtf8_length_lt (ne_nil_of_headD_ne_zero hs)
      rw [utf8Sequences_fuel fuel fuel' _ (by omega) (by omega)]

theorem compareModifiedUtf8Loop_fuel :
    ∀ (fuel fuel' : Nat) (a b : List Nat), a.length < fuel → a.length < fuel' →
      compareModifiedUtf8Loop fuel a b = compareModifiedUtf8Loop fuel' a b
  | 0, _, _, _, h, _ => by omega
  | _ + 1, 0, _, _, _, h => by omega
  | fuel + 1, fuel' + 1, a, b, h, h' => by
    by_cases ha : a.headD 0 = 0
    · simp only [compareModifiedUtf8Loop, if_pos ha]
    · have hlt := getUtf16FromUtf8_length_lt (ne_nil_of_headD_ne_zero ha)
      simp only [compareModifiedUtf8Loop, if_neg ha,
        compareModifiedUtf8Loop_fuel fuel fuel' (getUtf16FromUtf8 a).2 _ (by omega) (by omega)]

/-- Where no sequence is a four-byte pair, `CompareModifiedUtf8ToModifiedUtf8AsUtf16CodePointValues`
has the sign of the UTF-16 order of the two decodings. -/
theorem compareModifiedUtf8Loop_sign_of_no_pairs :
    ∀ (fuel : Nat) (a b : List Nat), a.length < fuel → b.length < fuel →
      (∀ x ∈ a, x < 256) → (∀ x ∈ b, x < 256) →
      (∀ c ∈ utf8Sequences fuel a, getTrailingUtf16Char c = 0) →
      (∀ c ∈ utf8Sequences fuel b, getTrailingUtf16Char c = 0) →
      compare (compareModifiedUtf8Loop fuel a b) 0 =
        compare (decodeModifiedUtf8Loop fuel a) (decodeModifiedUtf8Loop fuel b)
  | 0, a, b, h, _, _, _, _, _ => by omega
  | fuel + 1, a, b, hla, hlb, ha, hb, hpa, hpb => by
    by_cases ha0 : a.headD 0 = 0
    · simp only [compareModifiedUtf8Loop, decodeModifiedUtf8Loop, if_pos ha0]
      by_cases hb0 : b.headD 0 = 0
      · simp only [if_pos hb0]
        rfl
      · simp only [if_neg hb0]
        rfl
    by_cases hb0 : b.headD 0 = 0
    · simp only [compareModifiedUtf8Loop, decodeModifiedUtf8Loop, if_neg ha0, if_pos hb0]
      rfl
    -- both strings go on: each side is one char, its leading char being the whole sequence
    have hta : getTrailingUtf16Char (getUtf16FromUtf8 a).1 = 0 :=
      hpa _ (by simp only [utf8Sequences, if_neg ha0, List.mem_cons_self])
    have htb : getTrailingUtf16Char (getUtf16FromUtf8 b).1 = 0 :=
      hpb _ (by simp only [utf8Sequences, if_neg hb0, List.mem_cons_self])
    have hea := getLeadingUtf16Char_of_trailing_eq_zero (getUtf16FromUtf8_lt ha) hta
    have heb := getLeadingUtf16Char_of_trailing_eq_zero (getUtf16FromUtf8_lt hb) htb
    rw [decodeModifiedUtf8Loop_ne_nil ha0, decodeModifiedUtf8Loop_ne_nil hb0, if_neg (not_not.mpr hta),
      if_neg (not_not.mpr htb), List.nil_append, List.nil_append, List.compare_cons_cons, hea, heb]
    simp only [compareModifiedUtf8Loop, if_neg ha0, if_neg hb0]
    by_cases hc : (getUtf16FromUtf8 a).1 = (getUtf16FromUtf8 b).1
    · rw [if_pos hc, hc, Nat.compare_eq_eq.mpr rfl, Ordering.eq_then]
      have hlta := getUtf16FromUtf8_length_lt (ne_nil_of_headD_ne_zero ha0)
      have hltb := getUtf16FromUtf8_length_lt (ne_nil_of_headD_ne_zero hb0)
      refine compareModifiedUtf8Loop_sign_of_no_pairs fuel _ _ (by omega) (by omega)
        (getUtf16FromUtf8_snd_bytes ha) (getUtf16FromUtf8_snd_bytes hb) (fun c hc' => ?_)
        (fun c hc' => ?_)
      · exact hpa c (by simp only [utf8Sequences, if_neg ha0, List.mem_cons]; exact Or.inr hc')
      · exact hpb c (by simp only [utf8Sequences, if_neg hb0, List.mem_cons]; exact Or.inr hc')
    · rw [if_neg hc]
      rw [hea, heb]
      have hd : ((getUtf16FromUtf8 a).1 : Int) - (getUtf16FromUtf8 b).1 ≠ 0 := by omega
      rw [if_pos hd]
      rcases Nat.lt_or_gt_of_ne hc with hlt | hlt
      · rw [Nat.compare_eq_lt.mpr hlt]
        have : ((getUtf16FromUtf8 a).1 : Int) - (getUtf16FromUtf8 b).1 < 0 := by omega
        simpa [Int.compare_eq_lt] using this
      · rw [Nat.compare_eq_gt.mpr hlt]
        have : 0 < ((getUtf16FromUtf8 a).1 : Int) - (getUtf16FromUtf8 b).1 := by omega
        simpa [Int.compare_eq_gt] using this

theorem compareModifiedUtf8_sign_of_no_pairs (a b : List Nat) (ha : ∀ x ∈ a, x < 256)
    (hb : ∀ x ∈ b, x < 256)
    (hpa : ∀ c ∈ utf8Sequences (a.length + 1) a, getTrailingUtf16Char c = 0)
    (hpb : ∀ c ∈ utf8Sequences (b.length + 1) b, getTrailingUtf16Char c = 0) :
    compare (compareModifiedUtf8ToModifiedUtf8AsUtf16CodePointValues a b) 0 =
      compare (convertModifiedUtf8ToUtf16 a) (convertModifiedUtf8ToUtf16 b) := by
  -- run everything on one fuel that covers both strings
  have hN := compareModifiedUtf8Loop_sign_of_no_pairs (a.length + b.length + 1) a b (by omega)
    (by omega) ha hb
    (by rwa [utf8Sequences_fuel _ (a.length + 1) a (by omega) (by omega)])
    (by rwa [utf8Sequences_fuel _ (b.length + 1) b (by omega) (by omega)])
  unfold compareModifiedUtf8ToModifiedUtf8AsUtf16CodePointValues convertModifiedUtf8ToUtf16
  rw [compareModifiedUtf8Loop_fuel _ (a.length + b.length + 1) a b (by omega) (by omega),
    decodeModifiedUtf8Loop_fuel (a.length + 1) (a.length + b.length + 1) a (by omega) (by omega),
    decodeModifiedUtf8Loop_fuel (b.length + 1) (a.length + b.length + 1) b (by omega) (by omega)]
  exact hN

/-- Where the two comparators have UTF-16 code-unit order: the one against UTF-16 always, and the
one between two Modified UTF-8 strings when neither holds a four-byte sequence. -/
theorem modified_utf8_compare_order :
    (∀ utf8 utf16 : List Nat,
      compare (compareModifiedUtf8ToUtf16AsCodePointValues utf8 utf16) 0 =
        compare (convertModifiedUtf8ToUtf16 utf8) utf16) ∧
    ∀ a b : List Nat, (∀ x ∈ a, x < 256) → (∀ x ∈ b, x < 256) →
      (∀ c ∈ utf8Sequences (a.length + 1) a, getTrailingUtf16Char c = 0) →
      (∀ c ∈ utf8Sequences (b.length + 1) b, getTrailingUtf16Char c = 0) →
      compare (compareModifiedUtf8ToModifiedUtf8AsUtf16CodePointValues a b) 0 =
        compare (convertModifiedUtf8ToUtf16 a) (convertModifiedUtf8ToUtf16 b) :=
  ⟨compareModifiedUtf8ToUtf16_sign, compareModifiedUtf8_sign_of_no_pairs⟩

/-- `ConvertUtf16ToModifiedUtf8` writes `U+D800 U+E000` as two three-byte sequences and the pair
`U+D800 U+DC00` as one four-byte sequence.  In UTF-16 order the first is greater;
`CompareModifiedUtf8ToUtf16AsCodePointValues` agrees, but
`CompareModifiedUtf8ToModifiedUtf8AsUtf16CodePointValues` puts it first.  The pair written as two
three-byte sequences, as a dex file holds it, decodes to the same chars as the four-byte form and
still compares unequal to it. -/
theorem compare_modified_utf8_split_surrogate :
    convertUtf16ToModifiedUtf8 (countUtf8Bytes [0xd800, 0xe000]) [0xd800, 0xe000] =
        [0xed, 0xa0, 0x80, 0xee, 0x80, 0x80] ∧
      convertUtf16ToModifiedUtf8 (countUtf8Bytes [0xd800, 0xdc00]) [0xd800, 0xdc00] =
        [0xf0, 0x90, 0x80, 0x80] ∧
      convertModifiedUtf8ToUtf16 [0xed, 0xa0, 0x80, 0xee, 0x80, 0x80] = [0xd800, 0xe000] ∧
      convertModifiedUtf8ToUtf16 [0xf0, 0x90, 0x80, 0x80] = [0xd800, 0xdc00] ∧
      compare [0xd800, 0xe000] [0xd800, 0xdc00] = Ordering.gt ∧
      compareModifiedUtf8ToModifiedUtf8AsUtf16CodePointValues
        [0xed, 0xa0, 0x80, 0xee, 0x80, 0x80] [0xf0, 0x90, 0x80, 0x80] = -0xdc00 ∧
      compareModifiedUtf8ToUtf16AsCodePointValues
        [0xed, 0xa0, 0x80, 0xee, 0x80, 0x80] [0xd800, 0xdc00] = 1 ∧
      convertModifiedUtf8ToUtf16 [0xed, 0xa0, 0x80, 0xed, 0xb0, 0x80] = [0xd800, 0xdc00] ∧
      compareModifiedUtf8ToModifiedUtf8AsUtf16CodePointValues
        [0xed, 0xa0, 0x80, 0xed, 0xb0, 0x80] [0xf0, 0x90, 0x80, 0x80] = -0xdc00 := by
  decide

end Art
