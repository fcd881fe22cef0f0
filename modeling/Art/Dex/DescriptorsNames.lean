import Art.Dex.Utf

/-!
# Member and class name validators (`libdexfile/dex/descriptors_names.cc`)

A NUL-terminated string is the list of its bytes before the terminator, as in `Art.Dex.Utf`.
`IsValidPartOfMemberNameUtf8` checks one character of a name and steps over it: a low-ASCII
byte by the bit table `DEX_MEMBER_VALID_LOW_ASCII`, anything else by
`IsValidPartOfMemberNameUtf8Slow`, which decodes it and rules out the C1 controls, the format
characters, the specials and unpaired surrogates.  The loops run with the string's length as
fuel: every round steps over at least one byte.
-/

namespace Art

/-- `DEX_MEMBER_VALID_LOW_ASCII`: bit `c` says whether the low-ASCII char `c` may stand in a
name. -/
def dexMemberValidLowAscii : List (BitVec 32) := [0x00000000, 0x03ff2011, 0x87fffffe, 0x07fffffe]

/-- `IsValidPartOfMemberNameUtf8Slow`: whether the multibyte char at the start is valid, and the
string after it. -/
def isValidPartOfMemberNameUtf8Slow (s : List Nat) : Bool × List Nat :=
  let (pair, s) := getUtf16FromUtf8 s
  let leading := getLeadingUtf16Char pair
  -- a four-byte sequence: a surrogate pair, always valid
  if getTrailingUtf16Char pair ≠ 0 then (true, s)
  else
    let high := leading >>> 8
    if high = 0x00 then (decide (leading ≥ 0x00a0), s)
    else if 0xd8 ≤ high ∧ high ≤ 0xdb then
      -- a leading surrogate: the next sequence must be a trailing one
      let (pair2, s) := getUtf16FromUtf8 s
      let trailing := getLeadingUtf16Char pair2
      (decide (getTrailingUtf16Char pair2 = 0 ∧ 0xdc00 ≤ trailing ∧ trailing ≤ 0xdfff), s)
    else if 0xdc ≤ high ∧ high ≤ 0xdf then (false, s)
    else if high = 0x20 ∨ high = 0xff then
      let group := leading &&& 0xfff8
      if group = 0x2008 then (decide (leading ≤ 0x200a), s)
      else if group = 0x2028 then (decide (leading = 0x202f), s)
      else if group = 0xfff0 ∨ group = 0xfff8 then (false, s)
      else (true, s)
    else (true, s)

/-- `IsValidPartOfMemberNameUtf8`: whether the char at the start is valid, and the string after
it. -/
def isValidPartOfMemberNameUtf8 (s : List Nat) : Bool × List Nat :=
  let c := s.headD 0
  if c ≤ 0x7f then
    (dexMemberValidLowAscii.getD (c >>> 5) 0 &&& 1 <<< (c &&& 0x1f) ≠ 0, s.drop 1)
  else isValidPartOfMemberNameUtf8Slow s

/-- The `while (true)` loop of `IsValidMemberName`. -/
def isValidMemberNameLoop (angleName : Bool) : Nat → List Nat → Bool
  | 0, _ => false
  | fuel + 1, s =>
    let c := s.headD 0
    if c = 0 then !angleName
    else if c = 0x3e then angleName && (s.drop 1).headD 0 == 0
    else
      let (valid, s) := isValidPartOfMemberNameUtf8 s
      valid && isValidMemberNameLoop angleName fuel s

/-- `IsValidMemberName(s)`: a name, or a name between `<` and `>`. -/
def isValidMemberName (s : List Nat) : Bool :=
  let c := s.headD 0
  if c = 0 then false
  else if c = 0x3c then isValidMemberNameLoop true s.length (s.drop 1)
  else isValidMemberNameLoop false (s.length + 1) s

inductive ClassNameType
  | kName
  | kDescriptor
  deriving DecidableEq, Repr

/-- The `for (;;)` loop of `IsValidClassName` over the components of a class name. -/
def isValidClassNameLoop (type : ClassNameType) (separator : Nat) :
    Nat → Bool → List Nat → Bool
  | 0, _, _ => false
  | fuel + 1, sepOrFirst, s =>
    let c := s.headD 0
    if c = 0 then type == .kName && !sepOrFirst
    else if c = 0x3b then type == .kDescriptor && !sepOrFirst && (s.drop 1).headD 0 == 0
    else if c = 0x2f ∨ c = 0x2e then
      -- the wrong separator, or an empty component
      if c ≠ separator then false
      else if sepOrFirst then false
      else isValidClassNameLoop type separator fuel true (s.drop 1)
    else
      let (valid, s) := isValidPartOfMemberNameUtf8 s
      valid && isValidClassNameLoop type separator fuel false s

/-- `IsValidClassName<kType, kSeparator>(s)`. -/
def isValidClassName (kType : ClassNameType) (kSeparator : Nat) (s : List Nat) : Bool :=
  let arrayCount := (s.takeWhile (· == 0x5b)).length
  let s := s.drop arrayCount
  if arrayCount > 255 then false
  else
    -- an array is checked as a descriptor whatever was asked for
    let type := if kType ≠ .kDescriptor ∧ arrayCount ≠ 0 then .kDescriptor else kType
    if type = .kDescriptor then
      let c := s.headD 0
      let s := s.drop 1
      if c ∈ [0x42, 0x43, 0x44, 0x46, 0x49, 0x4a, 0x53, 0x5a] then s.headD 0 == 0
      else if c = 0x56 then arrayCount == 0 && s.headD 0 == 0
      else if c = 0x4c then isValidClassNameLoop type kSeparator (s.length + 1) true s
      else false
    else isValidClassNameLoop type kSeparator (s.length + 1) true s

def isValidBinaryClassName (s : List Nat) : Bool := isValidClassName .kName 0x2e s

def isValidJniClassName (s : List Nat) : Bool := isValidClassName .kName 0x2f s

def isValidDescriptor (s : List Nat) : Bool := isValidClassName .kDescriptor 0x2f s

example : isValidDescriptor [0x4c, 0x61, 0x2f, 0x62, 0x24, 0xed, 0xa0, 0x80, 0xed, 0xb0, 0x80, 0x3b] = true ∧
    isValidDescriptor [0x4c, 0x61, 0x2f, 0x62, 0x24, 0xed, 0xa0, 0x80, 0x3b] = false := by
  decide

/-! ### Array depth -/

theorem arrayCount_replicate_append {k : Nat} {s : List Nat} (hs : s.headD 0 ≠ 0x5b) :
    ((List.replicate k 0x5b ++ s).takeWhile (· == 0x5b)).length = k := by
  rw [List.takeWhile_append_of_pos (by simp)]
  cases s with
  | nil => simp
  | cons c s =>
    have hc : (c == 0x5b) = false := by simpa using hs
    simp [List.takeWhile_cons_of_neg, hc]

/-- More than 255 dimensions are refused, whatever follows them. -/
theorem isValidClassName_deep_array (kType : ClassNameType) (separator : Nat) {k : Nat}
    (hk : 255 < k) {s : List Nat} (hs : s.headD 0 ≠ 0x5b) :
    isValidClassName kType separator (List.replicate k 0x5b ++ s) = false := by
  simp only [isValidClassName, arrayCount_replicate_append hs]
  simp [hk]

/-- Up to 255 dimensions of a primitive type make a descriptor. -/
theorem isValidDescriptor_primitive_array {k : Nat} (hk : k ≤ 255) {c : Nat}
    (hc : c ∈ [0x42, 0x43, 0x44, 0x46, 0x49, 0x4a, 0x53, 0x5a]) :
    isValidDescriptor (List.replicate k 0x5b ++ [c]) = true := by
  have hne : [c].headD 0 ≠ 0x5b := by simp at hc ⊢; omega
  simp only [isValidDescriptor, isValidClassName, arrayCount_replicate_append hne]
  simp [hc, Nat.not_lt.mpr hk]

/-- `<>` is accepted as a member name, although what stands between the angle brackets, the
empty string, is not a name. -/
theorem is_valid_member_name_empty_angles :
    isValidMemberName [0x3c, 0x3e] = true ∧ isValidMemberName [] = false := by
  decide

end Art
