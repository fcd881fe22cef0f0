import Mathlib
import Art.Proofs.Utf

/-!
# UTF-16 through Modified UTF-8 and back

`ConvertUtf16ToModifiedUtf8` encodes a UTF-16 string one unit at a time (`utf16Units`): a
leading surrogate followed by a trailing one becomes one four-byte sequence, every other char a
sequence of one to three bytes, `U+0000` the two bytes `C0 80` (`convertLoop_eq`).  Each
sequence decodes back to its unit through `GetUtf16FromUtf8` (`getUtf16FromUtf8_unitBytes`),
whatever follows it, so the properties of the whole encoding are proved one unit at a time by
induction on the units: its length is `CountUtf8Bytes`, it holds no zero byte, it counts as many
chars as the string, it decodes back to the string and hashes like it
(`utf16_modified_utf8_round_trip`).

The byte arithmetic is done in `Nat`: masks with `2^k - 1` are `% 2^k`, shifts are products and
quotients, and an `|` of a multiple of `2^k` with a number below `2^k` is their sum.
-/

namespace Art

/-! ### Bytes as arithmetic -/

section Arith

theorem or_eq_add {a b : Nat} (k : Nat) (ha : 2 ^ k ∣ a) (hb : b < 2 ^ k) : a ||| b = a + b := by
  obtain ⟨q, rfl⟩ := ha
  rw [Nat.two_pow_add_eq_or_of_lt hb]

theorem and_eq_mod (x k m : Nat) (hm : m = 2 ^ k - 1) : x &&& m = x % 2 ^ k := by
  rw [hm, Nat.and_two_pow_sub_one_eq_mod]

theorem and_eq_zero_iff (x k m : Nat) (hm : m = 2 ^ k) : x &&& m = 0 ↔ x / 2 ^ k % 2 = 0 := by
  rw [hm, Nat.and_two_pow, Nat.testBit_eq_decide_div_mod_eq]
  rcases Nat.mod_two_eq_zero_or_one (x / 2 ^ k) with h | h
  · simp [h]
  · simp [h]

end Arith

/-! ### One sequence -/

section Sequence

theorem getUtf16FromUtf8_one {b : Nat} (rest : List Nat) (h : b &&& 0x80 = 0) :
    getUtf16FromUtf8 (b :: rest) = (b, rest) := by
  simp [getUtf16FromUtf8, h]

theorem getUtf16FromUtf8_two {b₁ b₂ : Nat} (rest : List Nat) (h₁ : b₁ &&& 0x80 ≠ 0)
    (h₂ : b₁ &&& 0x20 = 0) :
    getUtf16FromUtf8 (b₁ :: b₂ :: rest) = (((b₁ &&& 0x1f) <<< 6) ||| (b₂ &&& 0x3f), rest) := by
  simp [getUtf16FromUtf8, h₁, h₂]

theorem getUtf16FromUtf8_three {b₁ b₂ b₃ : Nat} (rest : List Nat) (h₁ : b₁ &&& 0x80 ≠ 0)
    (h₂ : b₁ &&& 0x20 ≠ 0) (h₃ : b₁ &&& 0x10 = 0) :
    getUtf16FromUtf8 (b₁ :: b₂ :: b₃ :: rest) =
      (((b₁ &&& 0x0f) <<< 12) ||| ((b₂ &&& 0x3f) <<< 6) ||| (b₃ &&& 0x3f), rest) := by
  simp [getUtf16FromUtf8, h₁, h₂, h₃]

theorem getUtf16FromUtf8_four {b₁ b₂ b₃ b₄ : Nat} (rest : List Nat) (h₁ : b₁ &&& 0x80 ≠ 0)
    (h₂ : b₁ &&& 0x20 ≠ 0) (h₃ : b₁ &&& 0x10 ≠ 0) :
    getUtf16FromUtf8 (b₁ :: b₂ :: b₃ :: b₄ :: rest) =
      (let codePoint := ((b₁ &&& 0x0f) <<< 18) ||| ((b₂ &&& 0x3f) <<< 12) |||
          ((b₃ &&& 0x3f) <<< 6) ||| (b₄ &&& 0x3f);
        (((codePoint >>> 10) + 0xd7c0) &&& 0xffff ||| ((codePoint &&& 0x03ff) + 0xdc00) <<< 16,
          rest)) := by
  simp [getUtf16FromUtf8, h₁, h₂, h₃]

/-- A lead byte: the high bits of the value below the marker bits `marker`, which take the
bits from `k` up. -/
theorem lead_byte {x : Nat} (k marker : Nat) (hmarker : 2 ^ k ∣ marker) (hx : x < 2 ^ k) :
    x ||| marker = marker + x := by
  rw [Nat.lor_comm, or_eq_add k hmarker hx]

/-- A continuation byte: six bits of the value under `10`. -/
theorem continuation_byte (x : Nat) : (x &&& 0x3f) ||| 0x80 = 0x80 + x % 64 := by
  rw [and_eq_mod x 6 63 rfl, lead_byte 6 0x80 ⟨2, rfl⟩ (Nat.mod_lt _ (by decide))]
  rfl

/-- The value a two-byte sequence decodes to: its groups of bits side by side. -/
theorem or_groups₂ (q t : Nat) (ht : t < 2 ^ 6) : (q <<< 6) ||| t = q * 64 + t := by
  rw [Nat.shiftLeft_eq, or_eq_add 6 (Dvd.intro_left q rfl) ht]
  rfl

theorem or_groups₃ (q r t : Nat) (hr : r < 2 ^ 6) (ht : t < 2 ^ 6) :
    (q <<< 12) ||| (r <<< 6) ||| t = q * 4096 + r * 64 + t := by
  have hhigh : (q <<< 12) ||| (r <<< 6) = (q * 64 + r) * 2 ^ 6 := by
    rw [Nat.shiftLeft_eq, Nat.shiftLeft_eq, or_eq_add 12 (Dvd.intro_left q rfl) (by omega)]
    omega
  rw [hhigh, or_eq_add 6 (Dvd.intro_left _ rfl) ht]
  omega

theorem or_groups₄ (p q r t : Nat) (hq : q < 2 ^ 6) (hr : r < 2 ^ 6) (ht : t < 2 ^ 6) :
    (p <<< 18) ||| (q <<< 12) ||| (r <<< 6) ||| t = p * 2 ^ 18 + q * 4096 + r * 64 + t := by
  have hhigh : (p <<< 18) ||| (q <<< 12) = (p * 64 + q) * 2 ^ 12 := by
    rw [Nat.shiftLeft_eq, Nat.shiftLeft_eq, or_eq_add 18 (Dvd.intro_left p rfl) (by omega)]
    omega
  have hmiddle : (p * 64 + q) * 2 ^ 12 ||| (r <<< 6) = ((p * 64 + q) * 64 + r) * 2 ^ 6 := by
    rw [Nat.shiftLeft_eq, or_eq_add 12 (Dvd.intro_left _ rfl) (by omega)]
    omega
  rw [hhigh, hmiddle, or_eq_add 6 (Dvd.intro_left _ rfl) ht]
  omega

/-! The bytes of each kind of sequence, as numbers. -/

theorem encodeUtf16Char_of_le {ch : Nat} (h : ch ≤ 0x7ff) :
    encodeUtf16Char ch = [0xc0 + ch / 64, 0x80 + ch % 64] := by
  rw [encodeUtf16Char, if_neg (by omega), continuation_byte, Nat.shiftRight_eq_div_pow,
    lead_byte 5 0xc0 ⟨6, rfl⟩ (by omega)]

theorem encodeUtf16Char_of_lt {ch : Nat} (h : 0x7ff < ch) (hch : ch < 2 ^ 16) :
    encodeUtf16Char ch = [0xe0 + ch / 4096, 0x80 + ch / 64 % 64, 0x80 + ch % 64] := by
  rw [encodeUtf16Char, if_pos h, continuation_byte, continuation_byte, Nat.shiftRight_eq_div_pow,
    Nat.shiftRight_eq_div_pow, lead_byte 4 0xe0 ⟨14, rfl⟩ (by omega)]

/-- A leading surrogate followed by a trailing one. -/
def IsSurrogatePair (ch ch2 : Nat) : Prop := 0xd800 ≤ ch ∧ ch ≤ 0xdbff ∧ 0xdc00 ≤ ch2 ∧ ch2 ≤ 0xdfff

instance (ch ch2 : Nat) : Decidable (IsSurrogatePair ch ch2) :=
  inferInstanceAs (Decidable (_ ∧ _ ∧ _ ∧ _))

/-- The four bytes `ConvertUtf16ToModifiedUtf8` writes for a surrogate pair. -/
def surrogatePairBytes (ch ch2 : Nat) : List Nat :=
  let codePoint := (ch <<< 10) + ch2 - 0x035fdc00
  [(codePoint >>> 18) ||| 0xf0, ((codePoint >>> 12) &&& 0x3f) ||| 0x80,
    ((codePoint >>> 6) &&& 0x3f) ||| 0x80, (codePoint &&& 0x3f) ||| 0x80]

/-- The code point of a pair: `0x10000` plus ten bits of each half. -/
theorem surrogatePairBytes_eq {ch ch2 : Nat} (h : IsSurrogatePair ch ch2) :
    surrogatePairBytes ch ch2 =
      let codePoint := ch * 1024 + ch2 - 0x035fdc00
      [0xf0 + codePoint / 2 ^ 18, 0x80 + codePoint / 4096 % 64, 0x80 + codePoint / 64 % 64,
        0x80 + codePoint % 64] := by
  obtain ⟨h1, h2, h3, h4⟩ := h
  rw [surrogatePairBytes, Nat.shiftLeft_eq]
  dsimp only
  rw [continuation_byte, continuation_byte, continuation_byte, Nat.shiftRight_eq_div_pow,
    Nat.shiftRight_eq_div_pow, Nat.shiftRight_eq_div_pow, lead_byte 3 0xf0 ⟨30, rfl⟩ (by omega)]

/-! Each sequence decodes back to its unit. -/

theorem getUtf16FromUtf8_ascii {ch : Nat} (h : 0 < ch ∧ ch ≤ 0x7f) (rest : List Nat) :
    getUtf16FromUtf8 (ch :: rest) = (ch, rest) :=
  getUtf16FromUtf8_one rest (by rw [and_eq_zero_iff _ 7 0x80 rfl]; omega)

/-- A char below `2^16` written in two or three bytes decodes back, also where it is ASCII. -/
theorem getUtf16FromUtf8_encodeUtf16Char {ch : Nat} (hch : ch < 2 ^ 16) (rest : List Nat) :
    getUtf16FromUtf8 (encodeUtf16Char ch ++ rest) = (ch, rest) := by
  by_cases hthree : 0x7ff < ch
  · -- three bytes: four bits, six and six
    rw [encodeUtf16Char_of_lt hthree hch, List.cons_append, List.cons_append, List.cons_append,
      List.nil_append,
      getUtf16FromUtf8_three rest (by rw [Ne, and_eq_zero_iff _ 7 0x80 rfl]; omega)
        (by rw [Ne, and_eq_zero_iff _ 5 0x20 rfl]; omega) (by rw [and_eq_zero_iff _ 4 0x10 rfl]; omega),
      and_eq_mod _ 4 0x0f rfl, and_eq_mod _ 6 0x3f rfl, and_eq_mod _ 6 0x3f rfl,
      or_groups₃ _ _ _ (Nat.mod_lt _ (Nat.two_pow_pos 6)) (Nat.mod_lt _ (Nat.two_pow_pos 6)),
      Prod.mk.injEq]
    exact ⟨by omega, rfl⟩
  · -- two bytes: five bits and six
    rw [encodeUtf16Char_of_le (by omega), List.cons_append, List.cons_append, List.nil_append,
      getUtf16FromUtf8_two rest (by rw [Ne, and_eq_zero_iff _ 7 0x80 rfl]; omega)
        (by rw [and_eq_zero_iff _ 5 0x20 rfl]; omega),
      and_eq_mod _ 5 0x1f rfl, and_eq_mod _ 6 0x3f rfl, or_groups₂ _ _ (Nat.mod_lt _ (Nat.two_pow_pos 6)),
      Prod.mk.injEq]
    exact ⟨by omega, rfl⟩

/-- A surrogate pair's four bytes decode to the pair, leading char low. -/
theorem getUtf16FromUtf8_surrogatePairBytes {ch ch2 : Nat} (h : IsSurrogatePair ch ch2)
    (rest : List Nat) :
    getUtf16FromUtf8 (surrogatePairBytes ch ch2 ++ rest) = (ch + ch2 * 2 ^ 16, rest) := by
  have hbytes := surrogatePairBytes_eq h
  obtain ⟨h1, h2, h3, h4⟩ := h
  rw [hbytes]
  dsimp only
  generalize hcp : ch * 1024 + ch2 - 0x035fdc00 = codePoint
  rw [List.cons_append, List.cons_append, List.cons_append, List.cons_append, List.nil_append,
    getUtf16FromUtf8_four rest (by rw [Ne, and_eq_zero_iff _ 7 0x80 rfl]; omega)
      (by rw [Ne, and_eq_zero_iff _ 5 0x20 rfl]; omega) (by rw [Ne, and_eq_zero_iff _ 4 0x10 rfl]; omega)]
  dsimp only
  rw [and_eq_mod _ 4 0x0f rfl, and_eq_mod _ 6 0x3f rfl, and_eq_mod _ 6 0x3f rfl, and_eq_mod _ 6 0x3f rfl,
    or_groups₄ _ _ _ _ (Nat.mod_lt _ (Nat.two_pow_pos 6)) (Nat.mod_lt _ (Nat.two_pow_pos 6))
      (Nat.mod_lt _ (Nat.two_pow_pos 6))]
  have hdecoded : (0xf0 + codePoint / 2 ^ 18) % 2 ^ 4 * 2 ^ 18 + (0x80 + codePoint / 4096 % 64) % 2 ^ 6 * 4096 +
      (0x80 + codePoint / 64 % 64) % 2 ^ 6 * 64 + (0x80 + codePoint % 64) % 2 ^ 6 = codePoint := by
    omega
  rw [hdecoded, Nat.shiftRight_eq_div_pow, and_eq_mod _ 16 0xffff rfl, and_eq_mod _ 10 0x3ff rfl,
    Nat.shiftLeft_eq, Nat.lor_comm,
    or_eq_add 16 (Dvd.intro_left _ rfl) (Nat.mod_lt _ (Nat.two_pow_pos 16)), Prod.mk.injEq]
  exact ⟨by omega, rfl⟩

end Sequence

/-! ### Units -/

section Units

/-- The units `ConvertUtf16ToModifiedUtf8` encodes one at a time: a leading surrogate with the
trailing one after it, or a single char. -/
def utf16Units : List Nat → List (List Nat)
  | [] => []
  | [ch] => [[ch]]
  | ch :: ch2 :: rest =>
    if IsSurrogatePair ch ch2 then [ch, ch2] :: utf16Units rest else [ch] :: utf16Units (ch2 :: rest)

/-- The bytes of one unit. -/
def unitBytes : List Nat → List Nat
  | [ch] => if 0 < ch ∧ ch ≤ 0x7f then [ch] else encodeUtf16Char ch
  | [ch, ch2] => surrogatePairBytes ch ch2
  | _ => []

/-- What `GetUtf16FromUtf8` returns for a unit: the char, or the pair with its trailing char in
the high half. -/
def unitValue : List Nat → Nat
  | [ch] => ch
  | [ch, ch2] => ch + ch2 * 2 ^ 16
  | _ => 0

/-- A unit of a string of `uint16_t`s. -/
def UnitOk (u : List Nat) : Prop :=
  (∃ ch, u = [ch] ∧ ch < 2 ^ 16) ∨ ∃ ch ch2, u = [ch, ch2] ∧ IsSurrogatePair ch ch2

/-- The chars the decoders write for what `GetUtf16FromUtf8` returns. -/
def sequenceChars (c : Nat) : List Nat :=
  getLeadingUtf16Char c ::
    (if getTrailingUtf16Char c ≠ 0 then [getTrailingUtf16Char c] else [])

theorem utf16Units_cons_single {ch : Nat} {rest : List Nat}
    (h : ∀ ch2 rest', rest = ch2 :: rest' → ¬IsSurrogatePair ch ch2) :
    utf16Units (ch :: rest) = [ch] :: utf16Units rest := by
  cases rest with
  | nil => rfl
  | cons ch2 rest' => rw [utf16Units, if_neg (h ch2 rest' rfl)]

theorem utf16Units_pair {ch ch2 : Nat} (rest : List Nat) (h : IsSurrogatePair ch ch2) :
    utf16Units (ch :: ch2 :: rest) = [ch, ch2] :: utf16Units rest := by
  rw [utf16Units, if_pos h]

/-- The encoder writes the bytes of each unit in turn. -/
theorem convertLoop_eq (s : List Nat) :
    convertUtf16ToModifiedUtf8Loop s = (utf16Units s).flatMap unitBytes := by
  fun_induction convertUtf16ToModifiedUtf8Loop s with
  | case1 => rfl
  | case2 ch rest hascii ih =>
    rw [utf16Units_cons_single fun _ _ _ hpair => by unfold IsSurrogatePair at hpair; omega,
      List.flatMap_cons, ih, unitBytes, if_pos hascii]
    rfl
  | case3 ch hascii ch2 rest hpair _ ih =>
    rw [utf16Units_pair rest hpair, List.flatMap_cons, ih]
    rfl
  | case4 ch hascii ch2 rest hpair ih =>
    rw [utf16Units_cons_single fun _ _ heq => by cases heq; exact hpair, List.flatMap_cons, ih,
      unitBytes, if_neg hascii]
  | case5 ch hascii =>
    rw [utf16Units, List.flatMap_cons, unitBytes, if_neg hascii, List.flatMap_nil, List.append_nil]

theorem flatten_utf16Units (s : List Nat) : (utf16Units s).flatten = s := by
  fun_induction utf16Units s with
  | case1 => rfl
  | case2 ch => rfl
  | case3 ch ch2 rest hpair ih => rw [List.flatten_cons, ih]; rfl
  | case4 ch ch2 rest hpair ih => rw [List.flatten_cons, ih]; rfl

theorem unitOk_of_mem_utf16Units {s : List Nat} (hs : ∀ c ∈ s, c < 2 ^ 16) :
    ∀ u ∈ utf16Units s, UnitOk u := by
  fun_induction utf16Units s with
  | case1 => intro u hu; cases hu
  | case2 ch =>
    intro u hu
    rw [List.mem_singleton] at hu
    exact .inl ⟨ch, hu, hs ch List.mem_cons_self⟩
  | case3 ch ch2 rest hpair ih =>
    intro u hu
    rcases List.mem_cons.mp hu with rfl | hu
    · exact .inr ⟨ch, ch2, rfl, hpair⟩
    · exact ih (fun c hc => hs c (List.mem_cons_of_mem _ (List.mem_cons_of_mem _ hc))) u hu
  | case4 ch ch2 rest hpair ih =>
    intro u hu
    rcases List.mem_cons.mp hu with rfl | hu
    · exact .inl ⟨ch, rfl, hs ch List.mem_cons_self⟩
    · exact ih (fun c hc => hs c (List.mem_cons_of_mem _ hc)) u hu

/-! What each unit's bytes are and how they read back. -/

section Unit

variable {u : List Nat}

theorem getUtf16FromUtf8_unitBytes (hu : UnitOk u) (rest : List Nat) :
    getUtf16FromUtf8 (unitBytes u ++ rest) = (unitValue u, rest) := by
  rcases hu with ⟨ch, rfl, hch⟩ | ⟨ch, ch2, rfl, hpair⟩
  · rw [unitBytes]
    split_ifs with hascii
    · exact getUtf16FromUtf8_ascii hascii rest
    · exact getUtf16FromUtf8_encodeUtf16Char hch rest
  · exact getUtf16FromUtf8_surrogatePairBytes hpair rest

theorem leading_trailing_single {ch : Nat} (hch : ch < 2 ^ 16) :
    getLeadingUtf16Char ch = ch ∧ getTrailingUtf16Char ch = 0 := by
  refine ⟨Nat.mod_eq_of_lt hch, ?_⟩
  rw [getTrailingUtf16Char, Nat.shiftRight_eq_div_pow, Nat.div_eq_of_lt hch, Nat.zero_mod]

theorem leading_trailing_pair {ch ch2 : Nat} (h : IsSurrogatePair ch ch2) :
    getLeadingUtf16Char (ch + ch2 * 2 ^ 16) = ch ∧ getTrailingUtf16Char (ch + ch2 * 2 ^ 16) = ch2 := by
  obtain ⟨h1, h2, h3, h4⟩ := h
  rw [getLeadingUtf16Char, getTrailingUtf16Char, Nat.shiftRight_eq_div_pow]
  omega

theorem sequenceChars_unitValue (hu : UnitOk u) : sequenceChars (unitValue u) = u := by
  rcases hu with ⟨ch, rfl, hch⟩ | ⟨ch, ch2, rfl, hpair⟩
  · obtain ⟨hleading, htrailing⟩ := leading_trailing_single hch
    rw [unitValue, sequenceChars, hleading, htrailing, if_neg (not_not.mpr rfl)]
  · obtain ⟨hleading, htrailing⟩ := leading_trailing_pair hpair
    rw [unitValue, sequenceChars, hleading, htrailing, if_pos (by unfold IsSurrogatePair at hpair; omega)]

/-- No byte of the encoding is zero, and each is a byte. -/
theorem mem_unitBytes (hu : UnitOk u) : ∀ b ∈ unitBytes u, 0 < b ∧ b < 256 := by
  rcases hu with ⟨ch, rfl, hch⟩ | ⟨ch, ch2, rfl, hpair⟩
  · rw [unitBytes]
    split_ifs with hascii
    · rintro b (_ | ⟨_, ⟨⟩⟩)
      omega
    · by_cases hthree : 0x7ff < ch
      · rw [encodeUtf16Char_of_lt hthree hch]
        rintro b (_ | ⟨_, _ | ⟨_, _ | ⟨_, ⟨⟩⟩⟩⟩) <;> omega
      · rw [encodeUtf16Char_of_le (by omega)]
        rintro b (_ | ⟨_, _ | ⟨_, ⟨⟩⟩⟩) <;> omega
  · have hbytes := surrogatePairBytes_eq hpair
    obtain ⟨h1, h2, h3, h4⟩ := hpair
    rw [unitBytes, hbytes]
    dsimp only
    generalize hcp : ch * 1024 + ch2 - 0x035fdc00 = codePoint
    rintro b (_ | ⟨_, _ | ⟨_, _ | ⟨_, _ | ⟨_, ⟨⟩⟩⟩⟩⟩) <;> omega

/-- `CountModifiedUtf8Chars` steps over a unit's bytes and counts its chars. -/
theorem countModifiedUtf8CharsLoop_unitBytes (hu : UnitOk u) (rest : List Nat) :
    countModifiedUtf8CharsLoop (unitBytes u ++ rest) = countModifiedUtf8CharsLoop rest + u.length := by
  rcases hu with ⟨ch, rfl, hch⟩ | ⟨ch, ch2, rfl, hpair⟩
  · rw [unitBytes]
    split_ifs with hascii
    · rw [List.cons_append, countModifiedUtf8CharsLoop,
        if_pos (by rw [and_eq_zero_iff _ 7 0x80 rfl]; omega)]
      rfl
    · by_cases hthree : 0x7ff < ch
      · rw [encodeUtf16Char_of_lt hthree hch, List.cons_append,
          countModifiedUtf8CharsLoop, if_neg (by rw [and_eq_zero_iff _ 7 0x80 rfl]; omega),
          if_neg (by rw [and_eq_zero_iff _ 5 0x20 rfl]; omega),
          if_pos (by rw [and_eq_zero_iff _ 4 0x10 rfl]; omega)]
        rfl
      · rw [encodeUtf16Char_of_le (by omega), List.cons_append,
          countModifiedUtf8CharsLoop, if_neg (by rw [and_eq_zero_iff _ 7 0x80 rfl]; omega),
          if_pos (by rw [and_eq_zero_iff _ 5 0x20 rfl]; omega)]
        rfl
  · have hbytes := surrogatePairBytes_eq hpair
    obtain ⟨h1, h2, h3, h4⟩ := hpair
    rw [unitBytes, hbytes, List.cons_append, countModifiedUtf8CharsLoop,
      if_neg (by rw [and_eq_zero_iff _ 7 0x80 rfl]; omega),
      if_neg (by rw [and_eq_zero_iff _ 5 0x20 rfl]; omega),
      if_neg (by rw [and_eq_zero_iff _ 4 0x10 rfl]; omega)]
    rfl

theorem length_unitBytes_pos (hu : UnitOk u) : 0 < (unitBytes u).length := by
  rcases hu with ⟨ch, rfl, hch⟩ | ⟨ch, ch2, rfl, hpair⟩
  · rw [unitBytes]
    split_ifs with hascii
    · exact Nat.succ_pos 0
    · unfold encodeUtf16Char
      split_ifs <;> exact Nat.succ_pos _
  · exact Nat.succ_pos _

/-- `ComputeUtf16HashFromModifiedUtf8` hashes a unit's chars and steps over its bytes. -/
theorem hashLoop_unitBytes (hu : UnitOk u) (n : Nat) (rest : List Nat) (hash : BitVec 32) :
    computeUtf16HashFromModifiedUtf8Loop (u.length + n) (unitBytes u ++ rest) hash =
      computeUtf16HashFromModifiedUtf8Loop n rest
        (u.foldl (fun hash c => hash * 31 + BitVec.ofNat 32 c) hash) := by
  have hdecode := getUtf16FromUtf8_unitBytes hu rest
  rcases hu with ⟨ch, rfl, hch⟩ | ⟨ch, ch2, rfl, hpair⟩
  · obtain ⟨hleading, htrailing⟩ := leading_trailing_single hch
    rw [List.length_singleton, Nat.add_comm, computeUtf16HashFromModifiedUtf8Loop, hdecode]
    dsimp only
    rw [unitValue, htrailing, if_neg (not_not.mpr rfl), hleading]
    rfl
  · obtain ⟨hleading, htrailing⟩ := leading_trailing_pair hpair
    have hne : ch2 ≠ 0 := by unfold IsSurrogatePair at hpair; omega
    rw [show [ch, ch2].length + n = n + 1 + 1 by simp; omega, computeUtf16HashFromModifiedUtf8Loop,
      hdecode]
    dsimp only
    rw [unitValue, htrailing, if_pos hne, hleading]
    rfl

end Unit

/-! The encoding, unit after unit. -/

theorem length_encodeUtf16Char (ch : Nat) :
    (encodeUtf16Char ch).length = if ch < 0x800 then 2 else 3 := by
  unfold encodeUtf16Char
  split_ifs <;> first | rfl | omega

/-- The encoder writes `CountUtf8Bytes` bytes. -/
theorem length_convertLoop (s : List Nat) :
    (convertUtf16ToModifiedUtf8Loop s).length = countUtf8Bytes s := by
  fun_induction convertUtf16ToModifiedUtf8Loop s with
  | case1 => rfl
  | case2 ch rest hascii ih =>
    cases rest with
    | nil => rw [countUtf8Bytes, if_pos (by omega)]; rfl
    | cons ch2 rest => rw [countUtf8Bytes, if_pos (by omega), List.length_cons, ih]
  | case3 ch hascii ch2 rest hpair _ ih =>
    rw [countUtf8Bytes, if_neg (by omega), if_neg (by omega), if_pos (by omega), List.length_append,
      ih]
    exact Nat.add_comm _ _
  | case4 ch hascii ch2 rest hpair ih =>
    rw [countUtf8Bytes, if_neg (by omega), List.length_append, ih, length_encodeUtf16Char]
    by_cases htwo : ch < 0x800
    · rw [if_pos htwo, if_pos htwo]
      omega
    · rw [if_neg htwo, if_neg htwo, if_neg (by omega)]
      omega
  | case5 ch hascii =>
    rw [countUtf8Bytes, if_neg (by omega), length_encodeUtf16Char]
    by_cases htwo : ch < 0x800
    · rw [if_pos htwo, if_pos htwo]
      rfl
    · rw [if_neg htwo, if_neg htwo]

theorem length_le_countUtf8Bytes (s : List Nat) : s.length ≤ countUtf8Bytes s := by
  fun_induction countUtf8Bytes s <;> simp only [List.length_cons, List.length_nil] at * <;> omega

/-- A string whose encoding is as long as it is ASCII. -/
theorem ascii_of_countUtf8Bytes_eq {s : List Nat} (h : countUtf8Bytes s = s.length) :
    ∀ c ∈ s, 0 < c ∧ c ≤ 0x7f := by
  fun_induction countUtf8Bytes s with
  | case1 => intro c hc; cases hc
  | case2 ch rest hascii ih =>
    rw [List.length_cons, Nat.add_right_cancel_iff] at h
    intro c hc
    rcases List.mem_cons.mp hc with rfl | hc
    · omega
    · exact ih h c hc
  | case3 ch rest _ _ _ =>
    have := length_le_countUtf8Bytes rest
    simp only [List.length_cons] at h
    omega
  | case4 ch _ _ ch2 rest _ _ =>
    have := length_le_countUtf8Bytes rest
    simp only [List.length_cons] at h
    omega
  | case5 ch _ _ ch2 rest _ _ =>
    have := length_le_countUtf8Bytes (ch2 :: rest)
    simp only [List.length_cons] at h this
    omega
  | case6 ch _ _ =>
    simp only [List.length_singleton] at h
    omega

theorem convertLoop_of_ascii : ∀ {s : List Nat}, (∀ c ∈ s, 0 < c ∧ c ≤ 0x7f) →
    convertUtf16ToModifiedUtf8Loop s = s
  | [], _ => rfl
  | ch :: rest, h => by
    rw [convertUtf16ToModifiedUtf8Loop.eq_def]
    dsimp only
    rw [if_pos (h ch List.mem_cons_self), convertLoop_of_ascii fun c hc => h c (List.mem_cons_of_mem _ hc)]

/-- Given its own byte count, `ConvertUtf16ToModifiedUtf8` writes what its general loop writes:
the copying branch is taken only for ASCII strings, where the loop copies too. -/
theorem convertUtf16ToModifiedUtf8_eq (s : List Nat) :
    convertUtf16ToModifiedUtf8 (countUtf8Bytes s) s = convertUtf16ToModifiedUtf8Loop s := by
  unfold convertUtf16ToModifiedUtf8
  split_ifs with h
  · have hascii := ascii_of_countUtf8Bytes_eq h
    rw [convertLoop_of_ascii hascii]
    conv_rhs => rw [← List.map_id s]
    exact List.map_congr_left fun c hc => Nat.mod_eq_of_lt (by have := hascii c hc; omega)
  · rfl

theorem mem_flatMap_unitBytes {us : List (List Nat)} (hus : ∀ u ∈ us, UnitOk u) :
    ∀ b ∈ us.flatMap unitBytes, 0 < b ∧ b < 256 := by
  intro b hb
  obtain ⟨u, hu, hb⟩ := List.mem_flatMap.mp hb
  exact mem_unitBytes (hus u hu) b hb

theorem countLoop_flatMap : ∀ (us : List (List Nat)), (∀ u ∈ us, UnitOk u) →
    countModifiedUtf8CharsLoop (us.flatMap unitBytes) = us.flatten.length
  | [], _ => by rw [List.flatMap_nil, countModifiedUtf8CharsLoop]; rfl
  | u :: us, hus => by
    rw [List.flatMap_cons, countModifiedUtf8CharsLoop_unitBytes (hus u List.mem_cons_self),
      countLoop_flatMap us fun v hv => hus v (List.mem_cons_of_mem _ hv), List.flatten_cons,
      List.length_append, Nat.add_comm]

theorem sequenceChars_append (c : Nat) (rest : List Nat) :
    getLeadingUtf16Char c ::
        ((if getTrailingUtf16Char c ≠ 0 then [getTrailingUtf16Char c] else []) ++ rest) =
      sequenceChars c ++ rest := rfl

/-- The sized decoder, given fuel past the bytes' length, writes the units back. -/
theorem decodeLoop_flatMap : ∀ (us : List (List Nat)), (∀ u ∈ us, UnitOk u) → ∀ fuel,
    (us.flatMap unitBytes).length < fuel →
      convertModifiedUtf8ToUtf16BytesLoop fuel (us.flatMap unitBytes) = us.flatten
  | _, _, 0, hfuel => absurd hfuel (Nat.not_lt_zero _)
  | [], _, fuel + 1, _ => rfl
  | u :: us, hus, fuel + 1, hfuel => by
    have hu := hus u List.mem_cons_self
    have hpos := length_unitBytes_pos hu
    rw [List.flatMap_cons, List.length_append] at hfuel
    rw [List.flatMap_cons, convertModifiedUtf8ToUtf16BytesLoop,
      if_neg (List.append_ne_nil_of_left_ne_nil (List.ne_nil_of_length_pos hpos) _),
      getUtf16FromUtf8_unitBytes hu]
    dsimp only
    rw [sequenceChars_append, sequenceChars_unitValue hu,
      decodeLoop_flatMap us (fun v hv => hus v (List.mem_cons_of_mem _ hv)) fuel (by omega),
      List.flatten_cons]

theorem hashLoop_flatMap : ∀ (us : List (List Nat)), (∀ u ∈ us, UnitOk u) → ∀ hash,
    computeUtf16HashFromModifiedUtf8Loop us.flatten.length (us.flatMap unitBytes) hash =
      us.flatten.foldl (fun hash c => hash * 31 + BitVec.ofNat 32 c) hash
  | [], _, _ => rfl
  | u :: us, hus, hash => by
    rw [List.flatMap_cons, List.flatten_cons, List.length_append,
      hashLoop_unitBytes (hus u List.mem_cons_self),
      hashLoop_flatMap us (fun v hv => hus v (List.mem_cons_of_mem _ hv)), List.foldl_append]

end Units

/-! ### The round trip -/

theorem utf16_modified_utf8_round_trip (s : List Nat) (hs : ∀ c ∈ s, c < 2 ^ 16) :
    (let bytes := convertUtf16ToModifiedUtf8 (countUtf8Bytes s) s
    bytes.length = countUtf8Bytes s ∧ (∀ b ∈ bytes, b ≠ 0 ∧ b < 256) ∧
      countModifiedUtf8Chars bytes (countUtf8Bytes s) = s.length ∧
      convertModifiedUtf8ToUtf16Counted s.length bytes = s ∧
      computeUtf16HashFromModifiedUtf8 bytes s.length = computeUtf16Hash s) := by
  intro bytes
  have hunits := unitOk_of_mem_utf16Units hs
  have hloop : bytes = convertUtf16ToModifiedUtf8Loop s := convertUtf16ToModifiedUtf8_eq s
  have hbytes : bytes = (utf16Units s).flatMap unitBytes := by rw [hloop, convertLoop_eq]
  have hlen : bytes.length = countUtf8Bytes s := by rw [hloop, length_convertLoop]
  refine ⟨hlen, ?_, ?_, ?_, ?_⟩
  · -- every byte is the byte of some unit, and none is zero
    intro b hb
    rw [hbytes] at hb
    have hbyte := mem_flatMap_unitBytes hunits b hb
    exact ⟨Nat.pos_iff_ne_zero.mp hbyte.1, hbyte.2⟩
  · rw [countModifiedUtf8Chars, ← hlen, List.take_length, hbytes, countLoop_flatMap _ hunits,
      flatten_utf16Units]
  · unfold convertModifiedUtf8ToUtf16Counted
    split_ifs with hascii
    · -- as many bytes as chars: the string is ASCII and the bytes are its chars
      have hcount : countUtf8Bytes s = s.length := by rw [← hlen, hascii]
      rw [hloop, convertLoop_of_ascii (ascii_of_countUtf8Bytes_eq hcount)]
    · rw [convertModifiedUtf8ToUtf16Sized, hbytes,
        decodeLoop_flatMap _ hunits _ (Nat.lt_succ_self _), flatten_utf16Units]
  · have hhash := hashLoop_flatMap (utf16Units s) hunits 0
    rw [flatten_utf16Units] at hhash
    rw [computeUtf16HashFromModifiedUtf8, computeUtf16Hash, hbytes, hhash]

/-- `A`, `U+0000`, a surrogate pair, a lone trailing surrogate and `U+FFFF`. -/
theorem utf16_modified_utf8_round_trip_mixed :
    (∀ c ∈ [0x41, 0, 0xd800, 0xdc00, 0xdfff, 0xffff], c < 2 ^ 16) ∧
      let s := [0x41, 0, 0xd800, 0xdc00, 0xdfff, 0xffff]
      let bytes := convertUtf16ToModifiedUtf8 (countUtf8Bytes s) s
      bytes.length = countUtf8Bytes s ∧ (∀ b ∈ bytes, b ≠ 0 ∧ b < 256) ∧
        countModifiedUtf8Chars bytes (countUtf8Bytes s) = s.length ∧
        convertModifiedUtf8ToUtf16Counted s.length bytes = s ∧
        computeUtf16HashFromModifiedUtf8 bytes s.length = computeUtf16Hash s :=
  ⟨by decide, utf16_modified_utf8_round_trip _ (by decide)⟩

end Art
